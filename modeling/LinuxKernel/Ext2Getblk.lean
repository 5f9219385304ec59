import LinuxKernel.Ext2Tree

/-!
# `ext2_getblk` and `ext2_bmap` find the same block

Both take a number apart in the same way, but `ext2_getblk` takes one number more.  While a call
sleeps, the other processes fill empty slots, and truncate those whose block nobody holds; the index
block that the call holds stays where it is in the tree.
-/

namespace LinuxKernel.Ext2Tree
open Function

variable {a k blocks : ℕ} {t t' t0 : Tree} {c : Call} {q r p path pre : List ℕ} {i j n x : ℕ}
variable {block : ℤ} {mayCreate : Bool} {ans : Answer}

theorem and_mask (hk : a = 2 ^ k) (n : ℕ) : n &&& (a - 1) = n % a := by
  rw [hk]
  exact Nat.and_two_pow_sub_one_eq_mod n k

theorem accepts_iff (a : ℕ) (block : ℤ) :
    (GetblkAccepts a block ↔ Tree.BmapAccepts a block) ↔ block ≠ Tree.maxBlock a := by
  have hpos : 0 ≤ (Tree.maxBlock a : ℤ) := Int.natCast_nonneg _
  unfold GetblkAccepts Tree.BmapAccepts
  constructor
  · rintro h rfl
    exact (h.mp ⟨not_lt.mpr hpos, lt_irrefl _⟩).2 le_rfl
  · intro hne
    omega

theorem getblkPath_leaf (hk : a = 2 ^ k) (h : Tree.BmapAccepts a block) :
    IsLeaf a (getblkPath a block) := by
  obtain ⟨h0, hmax⟩ := h
  have ha : 0 < a := hk ▸ Nat.two_pow_pos k
  have hmask (n : ℕ) : n &&& (a - 1) < a := by
    rw [and_mask hk]
    exact Nat.mod_lt n ha
  unfold getblkPath
  dsimp only
  obtain ⟨b, rfl⟩ := Int.eq_ofNat_of_zero_le (not_lt.mp h0)
  rw [Int.toNat_natCast]
  split_ifs with h1 h2 h3
  · unfold ndirBlocks at h1
    refine ⟨by unfold tindBlock; omega, ?_, by simp⟩
    unfold levels
    simp only [List.length_nil]
    omega
  · exact ⟨by decide, rfl, by simpa using h2⟩
  · refine ⟨by decide, rfl, ?_⟩
    have hdiv := Nat.div_lt_of_lt_mul h3
    simp [hdiv, hmask]
  · refine ⟨by decide, rfl, ?_⟩
    have hlt : b - ndirBlocks - a - a * a < a * a * a := by
      have : b < ndirBlocks + a + a * a + a * a * a := by exact_mod_cast not_le.mp hmax
      omega
    have hdiv := Nat.div_lt_of_lt_mul hlt
    simp [hdiv, hmask]

theorem bmap_eq_val (h : Tree.BmapAccepts a block) (t : Tree) :
    t.bmap a block = t.val (getblkPath a block) := by
  unfold Tree.bmap getblkPath
  dsimp only
  split_ifs <;> simp_all [Tree.val, Tree.walk, Tree.inodeBmap, Tree.blockBmap]

theorem eq_of_div_mod (h : n / a = x / a) (h' : n % a = x % a) : n = x := by
  rw [← Nat.div_add_mod n a, h, h', Nat.div_add_mod]

theorem getblkPath_injective (hk : a = 2 ^ k) {block' : ℤ} (h : Tree.BmapAccepts a block)
    (h' : Tree.BmapAccepts a block') (heq : getblkPath a block = getblkPath a block') :
    block = block' := by
  obtain ⟨b, rfl⟩ := Int.eq_ofNat_of_zero_le (not_lt.mp h.1)
  obtain ⟨b', rfl⟩ := Int.eq_ofNat_of_zero_le (not_lt.mp h'.1)
  congr 1
  unfold getblkPath at heq
  simp only [Int.toNat_natCast, and_mask hk] at heq
  -- the length of a path says which of the four ranges has the block
  by_cases h1 : b < ndirBlocks <;> by_cases h1' : b' < ndirBlocks <;>
    simp only [h1, h1', if_true, if_false] at heq
  · exact (List.cons.inj heq).1
  · split_ifs at heq <;> simp at heq
  · split_ifs at heq <;> simp at heq
  by_cases h2 : b - ndirBlocks < a <;> by_cases h2' : b' - ndirBlocks < a <;>
    simp only [h2, h2', if_true, if_false] at heq
  · simp only [List.cons.injEq, and_true, true_and] at heq
    omega
  · split_ifs at heq <;> simp at heq
  · split_ifs at heq <;> simp at heq
  by_cases h3 : b - ndirBlocks - a < a * a <;> by_cases h3' : b' - ndirBlocks - a < a * a <;>
    simp only [h3, h3', if_true, if_false] at heq
  · simp only [List.cons.injEq, and_true, true_and] at heq
    have := eq_of_div_mod heq.1 heq.2
    omega
  · simp at heq
  · simp at heq
  · simp only [List.cons.injEq, and_true, true_and] at heq
    obtain ⟨htop, hmiddle, hlast⟩ := heq
    rw [← Nat.div_div_eq_div_mul, ← Nat.div_div_eq_div_mul] at htop
    have := eq_of_div_mod (eq_of_div_mod htop hmiddle) hlast
    omega

/-- What another process does to the tree while a call sleeps that holds the buffer `held` and has
allocated `mine`: it fills an empty slot, it takes out a block that nobody holds and that has no
entries, it writes into a block that is not an index block of the file, or it counts. -/
inductive Env (a : ℕ) (held mine : Option ℕ) : Tree → Tree → Prop
  | fill {t : Tree} {q : List ℕ} {x : ℕ} (hq : IsPath a q) (hslot : t.HasSlot q)
      (hempty : t.val q = 0) (hunused : Unused a t x) (hzero : ∀ j < a, t.store x j = 0)
      (hmine : mine ≠ some x) : Env a held mine t (t.write (t.slotOf q) x)
  | clear {t : Tree} {q : List ℕ} (hq : IsPath a q) (hslot : t.HasSlot q)
      (hheld : held ≠ some (t.val q))
      (hbelow : ∀ j, IsPath a (q ++ [j]) → t.val (q ++ [j]) = 0) :
      Env a held mine t (t.write (t.slotOf q) 0)
  | other {t : Tree} {bh : ℕ} (words : ℕ → ℕ) (hbh : ∀ q, IsPath a q → t.val q = bh → IsLeaf a q)
      (hmine : mine ≠ some bh) :
      Env a held mine t { t with store := update t.store bh words }
  | count {t : Tree} (n : ℕ) : Env a held mine t { t with blocks := n }

theorem val_blocks (t : Tree) (n : ℕ) (q : List ℕ) : ({ t with blocks := n }).val q = t.val q := by
  have hwalk : ∀ m js, ({ t with blocks := n } : Tree).walk m js = t.walk m js := by
    intro m js
    induction js generalizing m with
    | nil => rfl
    | cons j js ih =>
      rw [Tree.walk, Tree.walk, ih]
  cases q with
  | nil => rfl
  | cons i js => exact hwalk _ js

theorem val_other {bh : ℕ} (words : ℕ → ℕ) (hbh : ∀ q, IsPath a q → t.val q = bh → IsLeaf a q)
    (hr : IsPath a r) :
    ({ t with store := update t.store bh words }).val r = t.val r := by
  induction r using List.reverseRecOn with
  | nil => exact absurd hr id
  | append_singleton r' k ih =>
    by_cases hr' : r' = []
    · subst hr'
      rfl
    · obtain ⟨hpath, hinner, -⟩ := hr.init hr'
      rw [Tree.val_snoc _ hr', Tree.val_snoc _ hr', ih hpath]
      by_cases hzero : t.val r' = 0
      · rw [if_pos hzero, if_pos hzero]
      · rw [if_neg hzero, if_neg hzero]
        exact congrFun (update_of_ne (fun heq => hinner (hbh r' hpath heq)) _ _) k

section
variable {held mine : Option ℕ} (h : Env a held mine t t') (hsane : Sane a t)
include h hsane

theorem Env.sets :
    (∀ r, IsPath a r → t'.val r = t.val r) ∨
      (∃ q x, Sets a t t' q x ∧ t.val q = 0 ∧ Unused a t x ∧ mine ≠ some x) ∨
      ∃ q, IsPath a q ∧ Sets a t t' q 0 ∧ held ≠ some (t.val q) ∧
        ∀ j, IsPath a (q ++ [j]) → t.val (q ++ [j]) = 0 := by
  cases h with
  | @fill q x hq hslot hempty hunused hzero hmine =>
    exact .inr (.inl ⟨q, x, sets_fill hsane hq hslot hempty hunused hzero, hempty, hunused, hmine⟩)
  | @clear q hq hslot hheld hbelow =>
    exact .inr (.inr ⟨q, hq, sets_clear hsane hq hslot hbelow, hheld, hbelow⟩)
  | other words hbh hmine => exact .inl fun r hr => val_other words hbh hr
  | count n => exact .inl fun r _ => val_blocks t n r

theorem Env.sane : Sane a t' := by
  rcases h.sets hsane with heq | ⟨q, x, hsets, -, hunused, -⟩ | ⟨q, -, hsets, -⟩
  · intro r s hr hs hne hval
    rw [heq r hr] at hne hval
    rw [heq s hs] at hval
    exact hsane r s hr hs hne hval
  · exact hsets.sane_fill hsane hunused
  · exact hsets.sane_clear hsane

end

theorem Env.keeps {mine : Option ℕ} (h : Env a (some n) mine t t') (hsane : Sane a t)
    (hpre : IsPath a pre) (hval : t.val pre = n) (hn : n ≠ 0) : t'.val pre = n := by
  rcases h.sets hsane with heq | ⟨q, x, hsets, hempty, -⟩ | ⟨q, hq, hsets, hheld, hbelow⟩
  · rw [heq pre hpre, hval]
  · rw [hsets pre hpre, if_neg, hval]
    rintro rfl
    exact hn (hval.symm.trans hempty)
  · rw [hsets pre hpre, if_neg, hval]
    rintro rfl
    exact hheld (congrArg some hval.symm)

theorem Env.keeps_mine {held : Option ℕ} (h : Env a held (some x) t t') (hsane : Sane a t)
    (hx : x ≠ 0) (hunused : Unused a t x) (hzero : ∀ j < a, t.store x j = 0) :
    Unused a t' x ∧ ∀ j < a, t'.store x j = 0 := by
  constructor
  · intro r hr
    rcases h.sets hsane with heq | ⟨q, y, hsets, -, -, hmine⟩ | ⟨q, -, hsets, -⟩
    · rw [heq r hr]
      exact hunused r hr
    · rw [hsets r hr]
      split_ifs
      · exact fun heq => hmine (congrArg some heq.symm)
      · exact hunused r hr
    · rw [hsets r hr]
      split_ifs
      · exact hx.symm
      · exact hunused r hr
  · intro j hj
    have hslot (q : List ℕ) (hq : IsPath a q) (y : ℕ) : (t.write (t.slotOf q) y).store x j = 0 := by
      cases q using List.reverseRecOn with
      | nil => exact absurd hq id
      | append_singleton p k =>
        by_cases hp : p = []
        · subst hp
          exact hzero j hj
        · rw [Tree.slotOf_snoc t hp]
          refine (congrFun (update_of_ne (fun heq => ?_) _ _) j).trans (hzero j hj)
          exact hunused p (hq.init hp).1 heq.symm
    cases h with
    | fill hq _ _ _ _ _ => exact hslot _ hq _
    | clear hq _ _ _ => exact hslot _ hq _
    | other words hbh hmine =>
      refine (congrFun (update_of_ne (fun heq => hmine ?_) _ _) j).trans (hzero j hj)
      rw [heq]
    | count n => exact hzero j hj

/-! ## Runs -/

/-- A call for the slots of `path` among the other processes, from the tree `t0` on.  What
`ext2_alloc_block` finds is in no slot, and has been cleared. -/
inductive Reach (a blocks : ℕ) (mayCreate : Bool) (path : List ℕ) (t0 : Tree) : Tree → Call → Prop
  | start : Reach a blocks mayCreate path t0 t0 (Call.start path)
  | own {t : Tree} {c : Call} (h : Reach a blocks mayCreate path t0 t c) (ans : Answer)
      (hfound : c.pc = .alloc → ans.block ≠ 0 →
        Unused a t ans.block ∧ ∀ j < a, t.store ans.block j = 0) :
      Reach a blocks mayCreate path t0 (step mayCreate blocks t c ans).1
        (step mayCreate blocks t c ans).2
  | env {t t' : Tree} {c : Call} (h : Reach a blocks mayCreate path t0 t c)
      (he : Env a c.held c.mine t t') : Reach a blocks mayCreate path t0 t' c

def At (t : Tree) (cur : Option ℕ) (pre : List ℕ) : Prop :=
  match cur with
  | none => pre = []
  | some bh => pre ≠ [] ∧ t.val pre = bh ∧ bh ≠ 0

def Placed (path : List ℕ) (t : Tree) (c : Call) : Prop :=
  match c.pc with
  | .done none => True
  | .done (some n) => n ≠ 0 ∧ t.val path = n
  | _ => ∃ pre, path = pre ++ c.nr :: c.rest ∧ At t c.cur pre

structure Inv (a : ℕ) (path : List ℕ) (t : Tree) (c : Call) : Prop where
  sane : Sane a t
  placed : Placed path t c
  got : ∀ tmp, c.pc = .got tmp → tmp ≠ 0
  mine : ∀ x, c.mine = some x → x ≠ 0 ∧ Unused a t x ∧ ∀ j < a, t.store x j = 0

theorem At.slot (h : At t c.cur pre) :
    c.slot = t.slotOf (pre ++ [c.nr]) ∧ t.HasSlot (pre ++ [c.nr]) := by
  unfold Call.slot
  cases hcur : c.cur with
  | none =>
    rw [hcur] at h
    obtain rfl : pre = [] := h
    refine ⟨rfl, fun p j hp heq => ?_⟩
    exact absurd (List.append_inj_left' heq rfl).symm hp
  | some bh =>
    rw [hcur] at h
    obtain ⟨hne, hval, hbh⟩ := h
    refine ⟨?_, fun p j hp heq => ?_⟩
    · rw [Tree.slotOf_snoc t hne, hval]
    · rw [← List.append_inj_left' heq rfl, hval]
      exact hbh

theorem At.read (h : At t c.cur pre) : t.read c.slot = t.val (pre ++ [c.nr]) := by
  rw [h.slot.1]
  exact Tree.read_slotOf (by simp) h.slot.2

theorem placed_advance (hpath : path = pre ++ c.nr :: c.rest) (hn : n ≠ 0)
    (hval : t.val (pre ++ [c.nr]) = n) : Placed path t (c.advance n) := by
  unfold Call.advance Placed
  cases hrest : c.rest with
  | nil =>
    rw [hrest] at hpath
    exact ⟨hn, by rw [hpath, hval]⟩
  | cons nr rest =>
    rw [hrest] at hpath
    exact ⟨pre ++ [c.nr], by rw [hpath]; simp, by simp, hval, hn⟩

/-- What a step of a call for `path` does to the tree: nothing, or it puts a block into an empty
slot and counts it. -/
def Effect (a blocks : ℕ) (path : List ℕ) (t t' : Tree) : Prop :=
  t' = t ∨ ∃ q x, q <+: path ∧ IsPath a q ∧ t.val q = 0 ∧ x ≠ 0 ∧ Sets a t t' q x ∧
    t'.blocks = t.blocks + blocks

theorem mine_advance (c : Call) (n : ℕ) : (c.advance n).mine = none := by
  unfold Call.advance
  cases c.rest <;> rfl

theorem pc_advance (c : Call) (n tmp : ℕ) : (c.advance n).pc ≠ .got tmp := by
  unfold Call.advance
  cases c.rest <;> simp

theorem Inv.step (h : Inv a path t c) (mayCreate : Bool) (blocks : ℕ) (hpath : IsPath a path)
    (ans : Answer)
    (hfound : c.pc = .alloc → ans.block ≠ 0 →
      Unused a t ans.block ∧ ∀ j < a, t.store ans.block j = 0) :
    Inv a path (step mayCreate blocks t c ans).1 (step mayCreate blocks t c ans).2 ∧
      Effect a blocks path t (step mayCreate blocks t c ans).1 := by
  have hplaced := h.placed
  unfold Ext2Tree.step
  unfold Placed at hplaced
  cases hpc : c.pc with
  | wait =>
    rw [hpc] at hplaced
    refine ⟨⟨h.sane, ?_, ?_, ?_⟩, .inl rfl⟩
    · cases ans.uptodate with
      | true => exact hplaced
      | false => trivial
    · cases ans.uptodate <;> simp
    · cases ans.uptodate <;> simp [Call.mine]
  | look =>
    rw [hpc] at hplaced
    dsimp only
    split_ifs with hread hcreate
    · exact ⟨⟨h.sane, hplaced, fun tmp heq => by simp at heq; omega, by simp [Call.mine]⟩, .inl rfl⟩
    · exact ⟨⟨h.sane, hplaced, by simp, by simp [Call.mine]⟩, .inl rfl⟩
    · exact ⟨⟨h.sane, trivial, by simp, by simp [Call.mine]⟩, .inl rfl⟩
  | got tmp =>
    rw [hpc] at hplaced
    dsimp only
    split_ifs with hread
    · obtain ⟨pre, hsplit, hat⟩ := hplaced
      rw [hat.read] at hread
      refine ⟨⟨h.sane, placed_advance hsplit (h.got tmp hpc) hread, ?_, ?_⟩, .inl rfl⟩
      · exact fun tmp' heq => absurd heq (pc_advance c tmp tmp')
      · rw [mine_advance]
        simp
    · exact ⟨⟨h.sane, hplaced, by simp, by simp [Call.mine]⟩, .inl rfl⟩
  | alloc =>
    rw [hpc] at hplaced
    dsimp only
    split_ifs with hzero
    · exact ⟨⟨h.sane, trivial, by simp, by simp [Call.mine]⟩, .inl rfl⟩
    · refine ⟨⟨h.sane, hplaced, by simp, fun x hx => ?_⟩, .inl rfl⟩
      obtain rfl := Option.some.inj hx
      exact ⟨hzero, hfound hpc hzero⟩
  | filled tmp =>
    rw [hpc] at hplaced
    dsimp only
    split_ifs with hread
    · exact ⟨⟨h.sane, hplaced, by simp, by simp [Call.mine]⟩, .inl rfl⟩
    · obtain ⟨pre, hsplit, hat⟩ := hplaced
      obtain ⟨hne, hunused, hzero⟩ := h.mine tmp (by unfold Call.mine; rw [hpc])
      have hempty : t.val (pre ++ [c.nr]) = 0 := by
        rw [← hat.read]
        exact not_not.mp hread
      have hpre : pre ++ [c.nr] <+: path := ⟨c.rest, by rw [hsplit]; simp⟩
      have hq : IsPath a (pre ++ [c.nr]) := hpath.of_prefix hpre (by simp)
      have hsets : Sets a t { t.write c.slot tmp with blocks := t.blocks + blocks }
          (pre ++ [c.nr]) tmp := by
        intro r hr
        rw [val_blocks, hat.slot.1]
        exact sets_fill h.sane hq hat.slot.2 hempty hunused hzero r hr
      refine ⟨⟨hsets.sane_fill h.sane hunused, ?_, ?_, ?_⟩,
        .inr ⟨pre ++ [c.nr], tmp, hpre, hq, hempty, hne, hsets, rfl⟩⟩
      · exact placed_advance hsplit hne (by rw [hsets _ hq, if_pos rfl])
      · exact fun tmp' heq => absurd heq (pc_advance c tmp tmp')
      · rw [mine_advance]
        simp
  | done result =>
    rw [hpc] at hplaced
    refine ⟨⟨h.sane, ?_, ?_, ?_⟩, .inl rfl⟩
    · unfold Placed
      rw [hpc]
      exact hplaced
    · exact h.got
    · exact h.mine

theorem placed_working (h : ∀ r, c.pc ≠ .done r) :
    Placed path t c ↔ ∃ pre, path = pre ++ c.nr :: c.rest ∧ At t c.cur pre := by
  unfold Placed
  cases hpc : c.pc with
  | done r => exact absurd hpc (h r)
  | _ => exact Iff.rfl

theorem held_working (h : ∀ r, c.pc ≠ .done r) : c.held = c.cur := by
  unfold Call.held
  cases hpc : c.pc with
  | done r => exact absurd hpc (h r)
  | _ => rfl

theorem Inv.env (h : Inv a path t c) (hpath : IsPath a path) (he : Env a c.held c.mine t t') :
    Inv a path t' c := by
  refine ⟨he.sane h.sane, ?_, h.got, fun x hx => ?_⟩
  · have hplaced := h.placed
    by_cases hdone : ∃ r, c.pc = .done r
    · obtain ⟨r, hr⟩ := hdone
      unfold Placed at hplaced ⊢
      rw [hr] at hplaced ⊢
      cases r with
      | none => trivial
      | some n =>
        have hheld : c.held = some n := by
          unfold Call.held
          rw [hr]
        rw [hheld] at he
        exact ⟨hplaced.1, he.keeps h.sane hpath hplaced.2 hplaced.1⟩
    · have hworking := not_exists.mp hdone
      rw [placed_working hworking] at hplaced ⊢
      rw [held_working hworking] at he
      obtain ⟨pre, hsplit, hat⟩ := hplaced
      refine ⟨pre, hsplit, ?_⟩
      cases hcur : c.cur with
      | none =>
        rw [hcur] at hat
        exact hat
      | some bh =>
        rw [hcur] at hat he
        obtain ⟨hne, hval, hbh⟩ := hat
        exact ⟨hne, he.keeps h.sane (hpath.of_prefix ⟨_, hsplit.symm⟩ hne) hval hbh, hbh⟩
  · obtain ⟨hne, hunused, hzero⟩ := h.mine x hx
    rw [hx] at he
    exact ⟨hne, he.keeps_mine h.sane hne hunused hzero⟩

theorem Inv.start (hsane : Sane a t) (hpath : IsPath a path) : Inv a path t (Call.start path) := by
  cases path with
  | nil => exact absurd hpath id
  | cons nr rest =>
    exact ⟨hsane, ⟨[], rfl, rfl⟩, by simp [Call.start], by simp [Call.start, Call.mine]⟩

theorem Reach.inv (h : Reach a blocks mayCreate path t0 t c) (hpath : IsPath a path)
    (hsane : Sane a t0) : Inv a path t c := by
  induction h with
  | start => exact Inv.start hsane hpath
  | own _ ans hfound ih => exact (ih.step mayCreate blocks hpath ans hfound).1
  | env _ he ih => exact ih.env hpath he

theorem Effect.bmap (h : Effect a blocks (getblkPath a block) t t') (hk : a = 2 ^ k)
    (hblock : Tree.BmapAccepts a block) {b : ℤ} (hb : b ≠ block) : t'.bmap a b = t.bmap a b := by
  rcases h with rfl | ⟨q, x, hpre, hq, -, -, hsets, -⟩
  · rfl
  · by_cases haccepts : Tree.BmapAccepts a b
    · have hleaf := getblkPath_leaf hk haccepts
      rw [bmap_eq_val haccepts, bmap_eq_val haccepts, hsets _ hleaf.isPath, if_neg]
      rintro rfl
      exact hb (getblkPath_injective hk haccepts hblock
        (hleaf.eq_of_prefix (getblkPath_leaf hk hblock).isPath hpre))
    · unfold Tree.bmap
      rw [if_pos haccepts, if_pos haccepts]

def InBlocks (a : ℕ) (path : List ℕ) : Prop := ∀ j ∈ path.tail, j < a

theorem inBlocks_iff (hk : a = 2 ^ k) (h : GetblkAccepts a block) :
    InBlocks a (getblkPath a block) ↔ block ≠ Tree.maxBlock a := by
  constructor
  · rintro hin rfl
    have ha : 0 < a := hk ▸ Nat.two_pow_pos k
    have hpath : a ∈ (getblkPath a (Tree.maxBlock a)).tail := by
      unfold getblkPath Tree.maxBlock
      simp only [Int.toNat_natCast]
      rw [if_neg (by omega), if_neg (by omega), if_neg (by omega)]
      have hdiv : (ndirBlocks + a + a * a + a * a * a - ndirBlocks - a - a * a) / (a * a) = a := by
        rw [show ndirBlocks + a + a * a + a * a * a - ndirBlocks - a - a * a = a * a * a by omega]
        exact Nat.mul_div_cancel_left a (Nat.mul_pos ha ha)
      simp [hdiv]
    exact absurd (hin a hpath) (lt_irrefl a)
  · intro hne j hj
    have hleaf := getblkPath_leaf hk (((accepts_iff a block).mpr hne).mp h)
    cases hp : getblkPath a block with
    | nil =>
      rw [hp] at hleaf
      exact absurd hleaf id
    | cons i js =>
      rw [hp] at hleaf hj
      exact hleaf.2.2 j hj

/-- For each number but the first that is too big, `ext2_getblk` and `ext2_bmap` agree: they take
the same numbers, a call among other processes looks only into its index blocks, returns the block
that `ext2_bmap` finds, leaves the other blocks and counts each block once. -/
theorem getblk_bmap (hk : a = 2 ^ k) (blocks : ℕ) (mayCreate : Bool) (block : ℤ) :
    ((GetblkAccepts a block ↔ Tree.BmapAccepts a block) ↔ block ≠ Tree.maxBlock a) ∧
      (GetblkAccepts a block →
        (InBlocks a (getblkPath a block) ↔ block ≠ Tree.maxBlock a) ∧
        (block ≠ Tree.maxBlock a → ∀ t0, Sane a t0 → ∀ t c,
          Reach a blocks mayCreate (getblkPath a block) t0 t c →
            (∀ n, c.pc = .done (some n) → t.bmap a block = n) ∧
            ∀ ans : Answer, (c.pc = .alloc → ans.block ≠ 0 →
                Unused a t ans.block ∧ ∀ j < a, t.store ans.block j = 0) →
              (∀ b ≠ block, (step mayCreate blocks t c ans).1.bmap a b = t.bmap a b) ∧
              Effect a blocks (getblkPath a block) t (step mayCreate blocks t c ans).1)) := by
  refine ⟨accepts_iff a block, fun haccepts => ⟨inBlocks_iff hk haccepts, ?_⟩⟩
  intro hne t0 hsane t c hreach
  have hbmap := ((accepts_iff a block).mpr hne).mp haccepts
  have hpath := (getblkPath_leaf hk hbmap).isPath
  have hinv := hreach.inv hpath hsane
  refine ⟨fun n hdone => ?_, fun ans hfound => ?_⟩
  · have hplaced := hinv.placed
    unfold Placed at hplaced
    rw [hdone] at hplaced
    rw [bmap_eq_val hbmap]
    exact hplaced.2
  · have heffect := (hinv.step mayCreate blocks hpath ans hfound).2
    exact ⟨fun b hb => heffect.bmap hk hbmap hb, heffect⟩

theorem getblk_bmap_1024 :
    (256 = 2 ^ 8) ∧ ((GetblkAccepts 256 16843020 ↔ Tree.BmapAccepts 256 16843020) ↔
      (16843020 : ℤ) ≠ Tree.maxBlock 256) :=
  ⟨by decide, (getblk_bmap (k := 8) (by decide) 2 true 16843020).1⟩

/-- `ext2_getblk` takes the number behind the last block, `ext2_bmap` does not. -/
theorem getblk_takes_maxBlock :
    ¬ ∀ a k : ℕ, a = 2 ^ k → ∀ block : ℤ, GetblkAccepts a block ↔ Tree.BmapAccepts a block := by
  intro h
  exact (accepts_iff 256 (Tree.maxBlock 256)).mp (h 256 8 (by decide) _) rfl

end LinuxKernel.Ext2Tree
