import LinuxKernel.Ext2DirBlock
import LinuxKernel.Ext2DirFileModel
import Mathlib.Data.List.GetD

/-!
# A directory of ext2 as a map

A name stands for its first record.  An added record comes before every other record of the name,
and a deleted one leaves the records behind it.
-/

namespace LinuxKernel.Ext2Dir
open Function List

variable {b pre post : Block} {de pde : DirEntry} {name other : Name} {o i k ino bs : ℕ}

def place (name : Name) : ℕ → Block → Option (ℕ × ℕ)
  | _, [] => none
  | i, de :: rest => if de.matches name then some (i, de.inode) else place name (i + de.recLen) rest

theorem place_append (name : Name) (i : ℕ) (b b' : Block) :
    place name i (b ++ b') = (place name i b).or (place name (i + size b) b') := by
  induction b generalizing i with
  | nil => rfl
  | cons d b ih =>
    rw [cons_append, place, place, size_cons, ← Nat.add_assoc]
    split_ifs
    · rfl
    · exact ih _

theorem place_eq_none (h : ∀ d ∈ b, d.matches name = false) : place name i b = none := by
  induction b generalizing i with
  | nil => rfl
  | cons d b ih =>
    rw [place, if_neg (by rw [h d (mem_cons_self ..)]; decide)]
    exact ih fun d' hd => h d' (mem_cons_of_mem _ hd)

theorem place_some (h : place name i b = some (o, ino)) :
    ∃ pre de post, b = pre ++ de :: post ∧ o = i + size pre ∧ ino = de.inode ∧
      de.matches name = true ∧ ∀ d ∈ pre, d.matches name = false := by
  induction b generalizing i with
  | nil => simp [place] at h
  | cons d b ih =>
    rw [place] at h
    split_ifs at h with hd
    · simp only [Option.some.injEq, Prod.mk.injEq] at h
      exact ⟨[], d, b, rfl, h.1.symm, h.2.symm, hd, by simp⟩
    · obtain ⟨pre, de, post, rfl, hsize, hino, hde, hpre⟩ := ih h
      refine ⟨d :: pre, de, post, rfl, by rw [size_cons, hsize, Nat.add_assoc], hino, hde, ?_⟩
      rintro d' hd'
      rcases mem_cons.mp hd' with rfl | hd'
      · simpa using hd
      · exact hpre d' hd'

theorem place_eq_none_iff : place name i b = none ↔ ∀ d ∈ b, d.matches name = false := by
  refine ⟨fun h d hd => ?_, place_eq_none⟩
  induction b generalizing i with
  | nil => exact absurd hd not_mem_nil
  | cons e b ih =>
    rw [place] at h
    split_ifs at h with he
    rcases mem_cons.mp hd with rfl | hd
    · simpa using he
    · exact ih h hd

def Chained (bs : ℕ) (b : Block) : Prop := (∀ de ∈ b, de.check = true) ∧ size b = bs

theorem checkAt_iff : de.checkAt bs i = true ↔ de.check = true ∧ i + de.recLen ≤ bs := by
  simp [DirEntry.checkAt]

theorem scanBlock_eq (name : Name) (hcheck : ∀ d ∈ b, d.check = true) (hsize : i + size b ≤ bs) :
    scanBlock bs name i b =
      match place name i b with
      | some (o, ino) => .found o ino
      | none => .past (i + size b) := by
  induction b generalizing i with
  | nil => rfl
  | cons d b ih =>
    rw [size_cons] at hsize
    have hd : d.checkAt bs i = true := checkAt_iff.mpr ⟨hcheck d (mem_cons_self ..), by omega⟩
    rw [scanBlock, if_neg (by rw [hd]; decide), place]
    by_cases hmatch : d.matches name = true
    · rw [if_pos hmatch, if_pos hmatch]
    · rw [if_neg hmatch, if_neg hmatch,
        ih (fun d' hd' => hcheck d' (mem_cons_of_mem _ hd')) (by omega), size_cons,
        Nat.add_assoc]

structure Tiled (bs : ℕ) (dir : Directory) : Prop where
  blocks : ∀ b ∈ dir.blocks, Chained bs b
  size : dir.size = dir.blocks.length * bs

/-! ## The search -/

/-- The first record of the name in blocks from number `k` on: its block, its place and its inode
number. -/
def lookup (name : Name) : ℕ → List Block → Option (ℕ × ℕ × ℕ)
  | _, [] => none
  | k, b :: l => ((place name 0 b).map fun x => (k, x.1, x.2)).or (lookup name (k + 1) l)

def Found.ofLookup : Option (ℕ × ℕ × ℕ) → Found
  | none => .absent
  | some (k, o, ino) => .entry k o ino

variable {v : Device} {dir : Directory} {ra : ReadAhead} {n : ℕ}

theorem size_le_iff (hbs : 0 < bs) (h : Tiled bs dir) (k : ℕ) :
    dir.size ≤ k * bs ↔ dir.blocks.length ≤ k := by
  rw [h.size]
  exact Nat.mul_le_mul_right_iff hbs

/-- The ring when block `j` is to be searched: the buffers of the next blocks, each of them up to
date or among those that are read before its turn. -/
structure Ring (dir : Directory) (j : ℕ) (ra : ReadAhead) : Prop where
  use : ∀ k, j ≤ k → k < j + raSize → k < dir.blocks.length → ra.use (k % raSize) = some k
  ready : ∀ k, j ≤ k → k < j + raSize → k < dir.blocks.length →
    ra.uptodate k = true ∨ k ∈ ra.read ∧ (j + 3) / raBlocks * raBlocks ≤ k

theorem getblk_of_lt (h : k < dir.blocks.length) : dir.getblk k = some k := if_pos h

theorem put_ready (ra : ReadAhead) (slot k : ℕ) :
    (ra.put slot (some k)).uptodate k = true ∨ k ∈ (ra.put slot (some k)).read := by
  by_cases h : ra.uptodate k = true
  · exact .inl h
  · refine .inr (mem_append_right _ ?_)
    simpa using h

theorem fill_ring (hbs : 0 < v.blocksize) (h : Tiled v.blocksize dir) (hn : k + n = raSize)
    (huse : ∀ i < k, i < dir.blocks.length → ra.use i = some i)
    (hready : ∀ i < k, i < dir.blocks.length → ra.uptodate i = true ∨ i ∈ ra.read) :
    Ring dir 0 (dir.fill v n k ra) := by
  have hdone (ra : ReadAhead)
      (huse : ∀ i < raSize, i < dir.blocks.length → ra.use i = some i)
      (hready : ∀ i < raSize, i < dir.blocks.length → ra.uptodate i = true ∨ i ∈ ra.read) :
      Ring dir 0 ra := by
    constructor
    · intro i _ hi hlen
      rw [Nat.zero_add] at hi
      rw [Nat.mod_eq_of_lt hi]
      exact huse i hi hlen
    · intro i _ hi hlen
      exact (hready i hi hlen).imp_right fun hread => ⟨hread, Nat.zero_le i⟩
  induction n generalizing k ra with
  | zero =>
    obtain rfl : k = raSize := hn
    exact hdone ra huse hready
  | succ n ih =>
    rw [Directory.fill]
    split_ifs with hend
    · have hlen := (size_le_iff hbs h k).mp hend
      exact hdone ra (fun i _ hi => huse i (by omega) hi) fun i _ hi => hready i (by omega) hi
    · have hlt : k < dir.blocks.length := not_le.mp (mt (size_le_iff hbs h k).mpr hend)
      rw [getblk_of_lt hlt]
      refine ih (by omega) (fun i hi hlen => ?_) fun i hi hlen => ?_
      · rcases Nat.lt_succ_iff_lt_or_eq.mp hi with hi | rfl
        · exact (update_of_ne (by omega) _ _).trans (huse i hi hlen)
        · exact update_self ..
      · rcases Nat.lt_succ_iff_lt_or_eq.mp hi with hi | rfl
        · exact (hready i hi hlen).imp_right fun hread => mem_append_left _ hread
        · exact put_ready ra i i

theorem Ring.turn (h : Ring dir k ra) (hread : ∀ j, v.readable j = true)
    (hk : k < dir.blocks.length) {ra' : ReadAhead}
    (hra : ra' = if k % raBlocks = 0 ∧ ra.read ≠ [] then ra.submit v else ra) :
    ra'.use = ra.use ∧ ra'.uptodate k = true ∧
      ∀ i, k < i → i < k + raSize → i < dir.blocks.length →
        ra'.uptodate i = true ∨ i ∈ ra'.read ∧ (k + 1 + 3) / raBlocks * raBlocks ≤ i := by
  have hturn : (k + 1 + 3) / raBlocks * raBlocks = k / 4 * 4 + 4 := by
    unfold raBlocks
    omega
  have hself := h.ready k le_rfl (Nat.lt_add_of_pos_right (by decide)) hk
  unfold raBlocks at hra hself
  by_cases hsubmit : k % 4 = 0 ∧ ra.read ≠ []
  · rw [if_pos hsubmit] at hra
    subst hra
    have hup (i : ℕ) (hi : ra.uptodate i = true ∨ i ∈ ra.read) :
        (ra.submit v).uptodate i = true := by
      unfold ReadAhead.submit
      rcases hi with hi | hi
      · simp [hi]
      · simp [hi, hread i]
    refine ⟨rfl, hup k (hself.imp_right And.left), fun i hki hi hlen => .inl (hup i ?_)⟩
    exact (h.ready i hki.le hi hlen).imp_right And.left
  · rw [if_neg hsubmit] at hra
    subst hra
    refine ⟨rfl, ?_, fun i hki hi hlen => ?_⟩
    · rcases hself with hup | ⟨hmem, hle⟩
      · exact hup
      · exact absurd ⟨by omega, ne_nil_of_mem hmem⟩ hsubmit
    · refine (h.ready i hki.le hi hlen).imp_right fun hmem => ⟨hmem.1, ?_⟩
      have hnext : ¬ k % 4 = 0 := fun hzero => hsubmit ⟨hzero, ne_nil_of_mem hmem.1⟩
      have hle := hmem.2
      unfold raBlocks at hle
      omega

theorem Ring.next (h : Ring dir k ra) {ra' : ReadAhead} (huse : ra'.use = ra.use)
    (hready : ∀ i, k < i → i < k + raSize → i < dir.blocks.length →
      ra'.uptodate i = true ∨ i ∈ ra'.read ∧ (k + 1 + 3) / raBlocks * raBlocks ≤ i)
    {bh : Option ℕ} (hbh : k + raSize < dir.blocks.length → bh = some (k + raSize)) :
    Ring dir (k + 1) (ra'.put (k % raSize) bh) := by
  constructor
  · intro i hki hi hlen
    unfold raSize at hi ⊢
    rcases Nat.lt_or_ge i (k + 8) with hlt | hge
    · refine (update_of_ne (by omega) _ _).trans ?_
      rw [huse]
      exact h.use i (by omega) hlt hlen
    · obtain rfl : i = k + 8 := by omega
      rw [hbh hlen, Nat.add_mod_right]
      exact update_self ..
  · intro i hki hi hlen
    unfold raSize at hi
    rcases Nat.lt_or_ge i (k + 8) with hlt | hge
    · exact (hready i (by omega) hlt hlen).imp_right fun hmem =>
        ⟨mem_append_left _ hmem.1, hmem.2⟩
    · obtain rfl : i = k + 8 := by omega
      rw [hbh hlen]
      refine (put_ready ra' (k % 8) (k + 8)).imp_right fun hmem => ⟨hmem, ?_⟩
      unfold raBlocks
      omega

theorem findLoop_eq (name : Name) (hbs : 0 < v.blocksize) (h : Tiled v.blocksize dir)
    (hread : ∀ j, v.readable j = true) (hring : Ring dir k ra) (hk : k ≤ dir.blocks.length)
    (hn : dir.blocks.length < n + k) :
    dir.findLoop v name n k (k * v.blocksize) ra =
      Found.ofLookup (lookup name k (dir.blocks.drop k)) := by
  induction n generalizing k ra with
  | zero => omega
  | succ n ih =>
    rw [Directory.findLoop]
    by_cases hend : dir.blocks.length ≤ k
    · rw [if_pos ((size_le_iff hbs h k).mpr hend), drop_eq_nil_of_le hend]
      rfl
    · have hlt : k < dir.blocks.length := not_le.mp hend
      rw [if_neg (mt (size_le_iff hbs h k).mp hend)]
      generalize hra : (if k % raBlocks = 0 ∧ ra.read ≠ [] then ra.submit v else ra) = ra'
      obtain ⟨huse, hup, hready⟩ := hring.turn hread hlt hra.symm
      have hslot : ra'.use (k % raSize) = some k := by
        rw [huse]
        exact hring.use k le_rfl (Nat.lt_add_of_pos_right (by decide)) hlt
      have hdrop : dir.blocks.drop k = dir.blocks.getD k [] :: dir.blocks.drop (k + 1) := by
        rw [drop_eq_getElem_cons hlt, getD_eq_getElem _ [] hlt]
      have hblock : Chained v.blocksize (dir.blocks.getD k []) := by
        rw [getD_eq_getElem _ [] hlt]
        exact h.blocks _ (getElem_mem hlt)
      have hscan := scanBlock_eq (i := 0) name hblock.1
        (show 0 + size _ ≤ v.blocksize by rw [hblock.2, Nat.zero_add])
      dsimp only
      rw [hslot, hdrop, lookup]
      dsimp only
      rw [hup, if_neg (by decide), hscan]
      cases hplace : place name 0 (dir.blocks.getD k []) with
      | some x => rfl
      | none =>
        rw [Option.map_none, Option.none_or, hblock.2, Nat.zero_add]
        have hsucc : k * v.blocksize + v.blocksize = (k + 1) * v.blocksize := by ring
        dsimp only
        rw [hsucc]
        refine ih (hring.next huse hready fun hlen => ?_) hlt (by omega)
        rw [if_neg (mt (size_le_iff hbs h (k + raSize)).mp (by omega)), getblk_of_lt hlen]

theorem find_eq (hbs : 0 < v.blocksize) (h : Tiled v.blocksize dir)
    (hread : ∀ j, v.readable j = true) (name : Name) :
    dir.find v name = Found.ofLookup (lookup (truncate name) 0 dir.blocks) := by
  have hring : Ring dir 0 (dir.fill v raSize 0 ⟨fun _ => none, [], v.cached⟩) :=
    fill_ring hbs h rfl (fun i hi => absurd hi (Nat.not_lt_zero i))
      fun i hi => absurd hi (Nat.not_lt_zero i)
  have hloop := findLoop_eq (n := dir.size + 1) (truncate name) hbs h hread hring
    (Nat.zero_le _) (by
      have := Nat.le_mul_of_pos_right dir.blocks.length hbs
      rw [h.size]
      omega)
  rw [Nat.zero_mul, drop_zero] at hloop
  exact hloop

/-! ## Adding a record -/

def DirEntry.HasRoom (name : Name) (de : DirEntry) : Prop :=
  (de.inode = 0 ∧ dirRecLen name.length ≤ de.recLen) ∨
    dirRecLen de.name.length + dirRecLen name.length ≤ de.recLen

instance (name : Name) (de : DirEntry) : Decidable (de.HasRoom name) := instDecidableOr

def DirEntry.Stops (name : Name) (de : DirEntry) : Prop := de.matches name = true ∨ de.HasRoom name

instance (name : Name) (de : DirEntry) : Decidable (de.Stops name) := instDecidableOr

def DirEntry.fill (name : Name) (ino : ℕ) (de : DirEntry) : Block :=
  if de.inode = 0 then [{ de with inode := ino, name := name }]
  else [{ de with recLen := dirRecLen de.name.length },
    ⟨ino, de.recLen - dirRecLen de.name.length, name⟩]

def DirEntry.shift (de : DirEntry) : ℕ := if de.inode = 0 then 0 else dirRecLen de.name.length

theorem addEntry_cases (name : Name) (bs : ℕ) (hcheck : ∀ d ∈ b, d.check = true)
    (hsize : i + size b ≤ bs) :
    (addEntry bs name i b = .ok none ∧ ∀ d ∈ b, ¬ d.Stops name) ∨
      ∃ pre de post, b = pre ++ de :: post ∧ (∀ d ∈ pre, ¬ d.Stops name) ∧
        (de.matches name = true ∧ addEntry bs name i b = .error .eexist ∨
          de.matches name = false ∧ de.HasRoom name ∧ addEntry bs name i b =
            .ok (some (pre ++ de.fill name 0 ++ post, i + size pre + de.shift))) := by
  induction b generalizing i with
  | nil => exact .inl ⟨rfl, by simp⟩
  | cons d b ih =>
    rw [size_cons] at hsize
    have hd : d.checkAt bs i = true := checkAt_iff.mpr ⟨hcheck d (mem_cons_self ..), by omega⟩
    rw [addEntry, if_neg (by rw [hd]; decide)]
    by_cases hmatch : d.matches name = true
    · rw [if_pos hmatch]
      exact .inr ⟨[], d, b, rfl, by simp, .inl ⟨hmatch, rfl⟩⟩
    rw [if_neg hmatch]
    by_cases hroom : d.HasRoom name
    · refine .inr ⟨[], d, b, rfl, by simp, .inr ⟨by simpa using hmatch, hroom, ?_⟩⟩
      unfold DirEntry.fill DirEntry.shift
      rw [if_pos (show (_ ∧ _) ∨ _ from hroom)]
      by_cases hfree : d.inode = 0
      · rw [if_pos hfree, if_pos hfree, if_pos hfree, hfree]
        rfl
      · rw [if_neg hfree, if_neg hfree, if_neg hfree]
        rfl
    have hstops : ¬ d.Stops name := not_or.mpr ⟨hmatch, hroom⟩
    have hcons {l : Block} (hl : ∀ d' ∈ l, ¬ d'.Stops name) : ∀ d' ∈ d :: l, ¬ d'.Stops name := by
      intro d' hd'
      rcases mem_cons.mp hd' with rfl | hd'
      · exact hstops
      · exact hl d' hd'
    rw [if_neg (show ¬ ((_ ∧ _) ∨ _) from hroom)]
    rcases ih (fun d' hd' => hcheck d' (mem_cons_of_mem _ hd')) (i := i + d.recLen)
      (by omega) with ⟨hnone, hno⟩ | ⟨pre, de, post, rfl, hpre, hcase⟩
    · rw [hnone]
      exact .inl ⟨rfl, hcons hno⟩
    · refine .inr ⟨d :: pre, de, post, rfl, hcons hpre, ?_⟩
      rcases hcase with ⟨hde, herr⟩ | ⟨hde, hroom', hok⟩
      · rw [herr]
        exact .inl ⟨hde, rfl⟩
      · rw [hok, size_cons, ← Nat.add_assoc]
        exact .inr ⟨hde, hroom', rfl⟩

theorem setInode_append (ino : ℕ) (hcheck : ∀ d ∈ pre, d.check = true) (x : ℕ)
    (b : Block) :
    setInode (i + size pre + x) ino i (pre ++ b) =
      pre ++ setInode (i + size pre + x) ino (i + size pre) b := by
  induction pre generalizing i with
  | nil => rfl
  | cons d pre ih =>
    have hpos := recLen_pos (hcheck d (mem_cons_self ..))
    rw [cons_append, setInode, if_neg (by rw [size_cons]; omega), size_cons, ← Nat.add_assoc,
      ih fun d' hd' => hcheck d' (mem_cons_of_mem _ hd')]
    rfl

theorem dirRecLen_pos (n : ℕ) : 0 < dirRecLen n := by
  unfold dirRecLen
  omega

theorem setInode_fill (hcheck : ∀ d ∈ pre, d.check = true) (name : Name) (ino : ℕ) :
    setInode (size pre + de.shift) ino 0 (pre ++ de.fill name 0 ++ post) =
      pre ++ de.fill name ino ++ post := by
  have happend := setInode_append (i := 0) ino hcheck de.shift (de.fill name 0 ++ post)
  rw [Nat.zero_add] at happend
  rw [append_assoc, happend, append_assoc]
  unfold DirEntry.fill DirEntry.shift
  have hpos := dirRecLen_pos de.name.length
  split_ifs
  · rw [singleton_append, setInode, if_pos (Nat.add_zero _).symm]
    rfl
  · rw [cons_append, singleton_append, setInode, if_neg (by omega), setInode, if_pos rfl]
    rfl

theorem size_fill (hroom : de.HasRoom name) (ino : ℕ) : size (de.fill name ino) = de.recLen := by
  unfold DirEntry.fill
  split_ifs with hfree
  · simp
  · have hle : dirRecLen de.name.length + dirRecLen name.length ≤ de.recLen :=
      hroom.resolve_left fun h => hfree h.1
    rw [size_cons, size_cons, size_nil]
    dsimp only
    omega

theorem matches_iff (hname : name ≠ []) :
    de.matches name = true ↔ de.inode ≠ 0 ∧ name = de.name := by
  simp [DirEntry.matches, hname]

theorem matches_recLen (name : Name) (de : DirEntry) (n : ℕ) :
    ({ de with recLen := n } : DirEntry).matches name = de.matches name := rfl

theorem place_fill (hname : name ≠ []) (hino : ino ≠ 0) (hpre : ∀ d ∈ pre, d.matches name = false)
    (hde : de.matches name = false) :
    place name 0 (pre ++ de.fill name ino ++ post) = some (size pre + de.shift, ino) := by
  rw [append_assoc, place_append, place_eq_none hpre, Option.none_or, Nat.zero_add]
  unfold DirEntry.fill DirEntry.shift
  split_ifs with hfree
  · rw [singleton_append, place, if_pos ((matches_iff hname).mpr ⟨hino, rfl⟩), Nat.add_zero]
  · rw [cons_append, singleton_append, place, matches_recLen, hde, if_neg (by decide),
      place, if_pos ((matches_iff hname).mpr ⟨hino, rfl⟩)]

theorem place_fill_other (hother : other ≠ []) (hne : other ≠ name) (hroom : de.HasRoom name)
    (ino : ℕ) :
    place other 0 (pre ++ de.fill name ino ++ post) = place other 0 (pre ++ de :: post) := by
  have hsize := size_fill hroom ino
  rw [append_assoc, place_append, place_append other 0 pre]
  rw [show de :: post = [de] ++ post from rfl, place_append, place_append other _ [de], hsize,
    size_cons, size_nil, Nat.add_zero]
  unfold DirEntry.fill
  split_ifs with hfree
  · rw [place, if_neg fun h => hne ((matches_iff hother).mp h).2, place, place,
      if_neg fun h => ((matches_iff hother).mp h).1 hfree, place]
  · by_cases hde : de.matches other = true
    · rw [place, matches_recLen, if_pos hde, place, if_pos hde]
    · rw [place, matches_recLen, if_neg hde, place,
        if_neg fun h => hne ((matches_iff hother).mp h).2, place, place, if_neg hde, place]

theorem chained_fill (hname : name ≠ []) (hroom : de.HasRoom name)
    (h : Chained bs (pre ++ de :: post)) (ino : ℕ) :
    Chained bs (pre ++ de.fill name ino ++ post) ↔ (de.inode ≠ 0 → de.name ≠ []) := by
  have hde := check_iff.mp (h.1 de (by simp))
  have hone := dirRecLen_one_le hname
  have hmod := dirRecLen_mod de.name.length
  constructor
  · intro hchained hused hempty
    have hcheck := hchained.1 { de with recLen := dirRecLen de.name.length } (by
      unfold DirEntry.fill
      rw [if_neg hused]
      simp)
    have hsmall := (check_iff.mp hcheck).1
    dsimp only at hsmall
    rw [hempty] at hsmall
    exact absurd hsmall (by decide)
  · intro hnamed
    refine ⟨fun d hd => ?_, ?_⟩
    · rw [append_assoc, mem_append, mem_append] at hd
      rcases hd with hd | hd | hd
      · exact h.1 d (by simp [hd])
      · unfold DirEntry.fill at hd
        split_ifs at hd with hfree
        · rw [mem_singleton.mp hd, check_iff]
          have hle : dirRecLen name.length ≤ de.recLen := by
            rcases hroom with hroom | hroom <;> omega
          exact ⟨hde.1, hde.2.1, hle⟩
        · have hle : dirRecLen de.name.length + dirRecLen name.length ≤ de.recLen :=
            hroom.resolve_left fun h => hfree h.1
          have hone' := dirRecLen_one_le (hnamed hfree)
          rcases mem_cons.mp hd with rfl | hd
          · rw [check_iff]
            exact ⟨hone', hmod, le_rfl⟩
          · rw [mem_singleton.mp hd, check_iff]
            dsimp only
            omega
      · exact h.1 d (by simp [hd])
    · rw [size_append, size_append, size_fill hroom, ← h.2, size_append, size_cons]
      omega

/-! ## Deleting a record -/

def absorb : DirEntry → Block → DirEntry → Block
  | pde, [], de => [{ pde with recLen := pde.recLen + de.recLen }]
  | pde, d :: pre, de => pde :: absorb d pre de

theorem deleteAfter_eq (hcheck : ∀ d ∈ pre ++ de :: post, d.check = true) :
    deleteAfter (i + size pre) pde i (pre ++ de :: post) = .ok (absorb pde pre de ++ post) := by
  induction pre generalizing pde i with
  | nil =>
    rw [nil_append, deleteAfter, if_neg (by rw [hcheck de (by simp)]; decide), size_nil,
      if_pos (Nat.add_zero i).symm]
    rfl
  | cons d pre ih =>
    have hd := hcheck d (by simp)
    have hpos := recLen_pos hd
    rw [cons_append, deleteAfter, if_neg (by rw [hd]; decide), size_cons,
      if_neg (by omega), ← Nat.add_assoc,
      ih fun d' hd' => hcheck d' (mem_cons_of_mem _ hd')]
    rfl

def removed (pre : Block) (de : DirEntry) : Block :=
  match pre with
  | [] => [{ de with inode := 0 }]
  | pde :: pre => absorb pde pre de

theorem deleteEntry_eq (hcheck : ∀ d ∈ pre ++ de :: post, d.check = true) :
    deleteEntry (size pre) (pre ++ de :: post) = .ok (removed pre de ++ post) := by
  cases pre with
  | nil =>
    rw [nil_append, deleteEntry, if_neg (by rw [hcheck de (by simp)]; decide), size_nil, if_pos rfl]
    rfl
  | cons pde pre =>
    have hpde := hcheck pde (by simp)
    have hpos := recLen_pos hpde
    rw [cons_append, deleteEntry, if_neg (by rw [hpde]; decide), size_cons,
      if_neg (by omega), deleteAfter_eq fun d hd => hcheck d (mem_cons_of_mem _ hd)]
    rfl

theorem size_absorb (pde : DirEntry) (pre : Block) (de : DirEntry) :
    size (absorb pde pre de) = size (pde :: pre) + de.recLen := by
  induction pre generalizing pde with
  | nil => simp [absorb]
  | cons d pre ih =>
    rw [absorb, size_cons, ih, size_cons pde, Nat.add_assoc]

theorem size_removed (pre : Block) (de : DirEntry) :
    size (removed pre de) = size pre + de.recLen := by
  cases pre with
  | nil => simp [removed]
  | cons pde pre => exact size_absorb pde pre de

theorem place_absorb (name : Name) (i : ℕ) (pde : DirEntry) (pre : Block) (de : DirEntry) :
    place name i (absorb pde pre de) = place name i (pde :: pre) := by
  induction pre generalizing pde i with
  | nil => rfl
  | cons d pre ih =>
    rw [absorb, place, place, ih]

theorem place_removed (hname : name ≠ []) (pre : Block) (de : DirEntry) :
    place name i (removed pre de) = place name i pre := by
  cases pre with
  | nil => exact if_neg fun h => ((matches_iff hname).mp h).1 rfl
  | cons pde pre => exact place_absorb name i pde pre de

theorem check_absorb (hcheck : ∀ d ∈ pde :: pre ++ [de], d.check = true) :
    ∀ d ∈ absorb pde pre de, d.check = true := by
  induction pre generalizing pde with
  | nil =>
    intro d hd
    rw [mem_singleton.mp hd]
    have hpde := check_iff.mp (hcheck pde (by simp))
    have hde := check_iff.mp (hcheck de (by simp))
    rw [check_iff]
    dsimp only
    omega
  | cons d pre ih =>
    intro d' hd'
    rcases mem_cons.mp hd' with rfl | hd'
    · exact hcheck d' (by simp)
    · exact ih (fun e he => hcheck e (mem_cons_of_mem _ he)) d' hd'

theorem chained_removed (h : Chained bs (pre ++ de :: post)) :
    Chained bs (removed pre de ++ post) := by
  refine ⟨fun d hd => ?_, ?_⟩
  · rcases mem_append.mp hd with hd | hd
    · cases pre with
      | nil =>
        rw [mem_singleton.mp hd]
        exact check_iff.mpr (check_iff.mp (h.1 de (by simp)))
      | cons pde pre =>
        refine check_absorb (fun e he => h.1 e ?_) d hd
        rcases mem_append.mp he with he | he
        · exact mem_append_left _ he
        · rw [mem_singleton.mp he]
          simp
    · exact h.1 d (by simp [hd])
  · rw [size_append, size_removed, ← h.2, size_append, size_cons]
    omega

end LinuxKernel.Ext2Dir
