import LinuxKernel.Ext2DirFile

/-!
# Additions and deletions in a directory of ext2

`ext2_add_entry` ends at the first record that has the name or has room for it.  So a name that
stands behind room is added a second time.
-/

namespace LinuxKernel.Ext2Dir
open List

variable {v : Device} {dir : Directory} {name other nm : Name} {front back l l' : List Block}
variable {b b' pre post : Block} {de : DirEntry} {n k o ino bs : ℕ}

theorem lookup_append (name : Name) (k : ℕ) (l l' : List Block) :
    lookup name k (l ++ l') = (lookup name k l).or (lookup name (k + l.length) l') := by
  induction l generalizing k with
  | nil => rfl
  | cons b l ih =>
    rw [cons_append, lookup, lookup, ih, Option.or_assoc, length_cons,
      Nat.add_right_comm, Nat.add_assoc]

theorem lookup_eq_none (h : ∀ b ∈ l, ∀ d ∈ b, d.matches name = false) : lookup name k l = none := by
  induction l generalizing k with
  | nil => rfl
  | cons b l ih =>
    rw [lookup, place_eq_none (h b (mem_cons_self ..)), Option.map_none, Option.none_or]
    exact ih fun b' hb' => h b' (mem_cons_of_mem _ hb')

theorem lookup_eq_none_iff : lookup name k l = none ↔ ∀ b ∈ l, ∀ d ∈ b, d.matches name = false := by
  refine ⟨fun h b hb => ?_, lookup_eq_none⟩
  induction l generalizing k with
  | nil => exact absurd hb not_mem_nil
  | cons c l ih =>
    rw [lookup, Option.or_eq_none_iff, Option.map_eq_none_iff] at h
    rcases mem_cons.mp hb with rfl | hb
    · exact place_eq_none_iff.mp h.1
    · exact ih h.2 hb

theorem lookup_replace (h : place name 0 b' = place name 0 b) :
    lookup name k (front ++ b' :: back) = lookup name k (front ++ b :: back) := by
  rw [lookup_append, lookup_append, lookup, lookup, h]

theorem lookup_some {x : ℕ × ℕ × ℕ} (h : lookup name k l = some x) :
    ∃ front pre de post back, l = front ++ (pre ++ de :: post) :: back ∧
      x = (k + front.length, size pre, de.inode) ∧ de.matches name = true ∧
      (∀ b ∈ front, ∀ d ∈ b, d.matches name = false) ∧ ∀ d ∈ pre, d.matches name = false := by
  induction l generalizing k with
  | nil => simp [lookup] at h
  | cons b l ih =>
    rw [lookup] at h
    cases hplace : place name 0 b with
    | some y =>
      obtain ⟨pre, de, post, rfl, ho, hino, hde, hpre⟩ := place_some hplace
      rw [hplace] at h
      refine ⟨[], pre, de, post, l, rfl, ?_, hde, by simp, hpre⟩
      rw [Nat.zero_add] at ho
      rw [← ho, ← hino]
      exact (Option.some.inj h).symm
    | none =>
      rw [hplace, Option.map_none, Option.none_or] at h
      obtain ⟨front, pre, de, post, back, rfl, hx, hde, hfront, hpre⟩ := ih h
      refine ⟨b :: front, pre, de, post, back, rfl, ?_, hde, ?_, hpre⟩
      · rw [hx, length_cons, Nat.add_assoc, Nat.add_comm 1]
      · intro b' hb'
        rcases mem_cons.mp hb' with rfl | hb'
        · exact place_eq_none_iff.mp hplace
        · exact hfront b' hb'

/-! ## How an addition ends -/

def Passed (name : Name) (b : Block) : Prop := ∀ d ∈ b, ¬ d.Stops name

theorem Passed.matches (h : Passed name b) : ∀ d ∈ b, d.matches name = false := by
  intro d hd
  simpa using fun hmatch => h d hd (.inl hmatch)

/-- The end of `ext2_add_entry`: at the name, at room, or behind all blocks. -/
inductive Outcome (v : Device) (dir : Directory) (name : Name) :
    Except Err (Directory × ℕ × ℕ) → Prop
  | present {front back : List Block} {pre post : Block} {de : DirEntry}
      (hblocks : dir.blocks = front ++ (pre ++ de :: post) :: back)
      (hfront : ∀ b ∈ front, Passed name b) (hpre : Passed name pre)
      (hde : de.matches name = true) : Outcome v dir name (.error .eexist)
  | room {front back : List Block} {pre post : Block} {de : DirEntry}
      (hblocks : dir.blocks = front ++ (pre ++ de :: post) :: back)
      (hfront : ∀ b ∈ front, Passed name b) (hpre : Passed name pre)
      (hde : de.matches name = false) (hroom : de.HasRoom name) :
      Outcome v dir name (.ok
        ({ dir with blocks := front ++ (pre ++ de.fill name 0 ++ post) :: back },
          front.length, size pre + de.shift))
  | full (hall : ∀ b ∈ dir.blocks, Passed name b) : Outcome v dir name (.error .enospc)
  | extended (hall : ∀ b ∈ dir.blocks, Passed name b) :
      Outcome v dir name (.ok
        (⟨dir.blocks ++ [[⟨0, v.blocksize, name⟩]], dir.size + v.blocksize⟩, dir.blocks.length, 0))

theorem getD_split (front : List Block) (b : Block) (back : List Block) :
    (front ++ b :: back).getD front.length [] = b := by
  simp

theorem set_split (front : List Block) (b b' : Block) (back : List Block) :
    (front ++ b :: back).set front.length b' = front ++ b' :: back := by
  simp

theorem modify_split (front : List Block) (b : Block) (back : List Block) (f : Block → Block) :
    (front ++ b :: back).modify front.length f = front ++ f b :: back := by
  rw [modify_eq_set_getElem?]
  simp

theorem dirRecLen_le (nm : Name) (hnm : nm.length ≤ 255) (hb : v.blocksize ∈ [1024, 2048, 4096]) :
    dirRecLen nm.length ≤ v.blocksize := by
  simp only [mem_cons, not_mem_nil, or_false] at hb
  unfold dirRecLen
  omega

theorem check_whole (nm : Name) (hb : v.blocksize ∈ [1024, 2048, 4096])
    (hnm : nm.length ≤ 255) (ino : ℕ) :
    (⟨ino, v.blocksize, nm⟩ : DirEntry).check = true := by
  refine check_iff.mpr ⟨?_, ?_, dirRecLen_le nm hnm hb⟩
  · exact dirRecLen_le [0] (by decide) hb
  · simp only [mem_cons, not_mem_nil, or_false] at hb
    dsimp only
    omega

theorem addEntry_new (hb : v.blocksize ∈ [1024, 2048, 4096]) (hnm : nm.length ≤ 255)
    (hne : nm ≠ []) : addEntry v.blocksize nm 0 [⟨0, v.blocksize, []⟩] =
      .ok (some ([⟨0, v.blocksize, nm⟩], 0)) := by
  have hcheck : (⟨0, v.blocksize, []⟩ : DirEntry).check = true := check_whole [] hb (by decide) 0
  have hroom : (⟨0, v.blocksize, []⟩ : DirEntry).HasRoom nm := .inl ⟨rfl, dirRecLen_le nm hnm hb⟩
  have hat : (⟨0, v.blocksize, []⟩ : DirEntry).checkAt v.blocksize 0 = true :=
    checkAt_iff.mpr ⟨hcheck, by dsimp only; omega⟩
  have hmatch : ¬ (⟨0, v.blocksize, []⟩ : DirEntry).matches nm = true :=
    fun h => ((matches_iff hne).mp h).1 rfl
  rw [addEntry, if_neg (by rw [hat]; decide), if_neg hmatch,
    if_pos (show (_ ∧ _) ∨ _ from hroom), if_pos rfl]

theorem addLoop_outcome (hb : v.blocksize ∈ [1024, 2048, 4096]) (h : Tiled v.blocksize dir)
    (hread : ∀ j, v.readable j = true) (hnm : nm.length ≤ 255) (hne : nm ≠ [])
    (hblocks : dir.blocks = front ++ b :: back) (hfront : ∀ b ∈ front, Passed nm b)
    (hn : dir.blocks.length < n + front.length) :
    ∃ r, Directory.addLoop v nm n front.length (front.length * v.blocksize) dir = some r ∧
      Outcome v dir nm r := by
  have hbs : 0 < v.blocksize := by
    simp only [mem_cons, not_mem_nil, or_false] at hb
    omega
  induction n generalizing front b back with
  | zero =>
    rw [hblocks, length_append, length_cons] at hn
    omega
  | succ n ih =>
    have hget : dir.blocks.getD front.length [] = b := by rw [hblocks, getD_split]
    have hchained := h.blocks b (by rw [hblocks]; simp)
    rw [Directory.addLoop, hget]
    rcases addEntry_cases (i := 0) nm v.blocksize hchained.1
      (by rw [hchained.2, Nat.zero_add]) with ⟨hnone, hpass⟩ | ⟨pre, de, post, rfl, hpre, hcase⟩
    · -- the next block, or a new one
      have hoffset : front.length * v.blocksize + v.blocksize =
          (front.length + 1) * v.blocksize := by
        ring
      rw [hnone]
      dsimp only
      rw [hchained.2, hoffset, Nat.mul_div_cancel _ hbs]
      have hfront' : ∀ c ∈ front ++ [b], Passed nm c := by
        intro c hc
        rcases mem_append.mp hc with hc | hc
        · exact hfront c hc
        · rw [mem_singleton.mp hc]
          exact hpass
      have hlen : (front ++ [b]).length = front.length + 1 := by simp
      cases back with
      | cons b' back =>
        have hlt : front.length + 1 < dir.blocks.length := by
          rw [hblocks]
          simp
        have hsize : ¬ dir.size ≤ (front.length + 1) * v.blocksize :=
          mt (size_le_iff hbs h _).mp (by omega)
        have hbread : dir.bread v (front.length + 1) = .ok dir := by
          unfold Directory.bread
          rw [if_pos hlt, if_pos (hread _)]
        rw [hbread]
        dsimp only
        rw [if_neg hsize, ← hlen]
        have hblocks' : dir.blocks = (front ++ [b]) ++ b' :: back := by
          rw [hblocks]
          simp
        exact ih hblocks' hfront' (by rw [hlen]; omega)
      | nil =>
        have hlast : front.length + 1 = dir.blocks.length := by
          rw [hblocks]
          simp
        have hall : ∀ c ∈ dir.blocks, Passed nm c := by
          rw [hblocks]
          exact hfront'
        unfold Directory.bread
        rw [hlast, if_neg (lt_irrefl _)]
        by_cases hspace : v.space = true
        · rw [if_pos hspace]
          dsimp only
          have hpos : ¬ dir.size = 0 := by
            rw [h.size, ← hlast]
            exact Nat.mul_ne_zero (by omega) hbs.ne'
          rw [← h.size, if_pos le_rfl, if_neg hpos]
          have hnew := modify_split dir.blocks [⟨0, 0, []⟩] [] (wholeRecord v.blocksize)
          obtain ⟨m, rfl⟩ : ∃ m, n = m + 1 := ⟨n - 1, by omega⟩
          refine ⟨_, ?_, .extended hall⟩
          rw [hnew, Directory.addLoop, getD_split]
          rw [show wholeRecord v.blocksize [⟨0, 0, []⟩] = [⟨0, v.blocksize, []⟩] from rfl,
            addEntry_new hb hnm hne]
          dsimp only
          rw [set_split]
        · rw [if_neg hspace]
          exact ⟨_, rfl, .full hall⟩
    · rcases hcase with ⟨hde, herr⟩ | ⟨hde, hroom, hok⟩
      · rw [herr]
        exact ⟨_, rfl, .present hblocks hfront hpre hde⟩
      · rw [hok]
        refine ⟨_, rfl, ?_⟩
        rw [hblocks, set_split, Nat.zero_add]
        exact .room hblocks hfront hpre hde hroom

/-! ## The map -/

def Directory.records (dir : Directory) : List DirEntry := dir.blocks.flatten

def Present (dir : Directory) (name : Name) : Prop :=
  ∃ de ∈ dir.records, de.matches (truncate name) = true

def Apart (name other : Name) : Prop := other ≠ [] ∧ truncate other ≠ truncate name

/-- An addition makes the name found and leaves the others and the blocks in order, and it fails
with `EEXIST` when the name is there and only then. -/
structure AddsExactly (v : Device) (dir : Directory) (name : Name) : Prop where
  returns : ∃ r, dir.add v name = some r
  eexist : dir.add v name = some (.error .eexist) ↔ Present dir name
  tiled : ∀ d bh o, dir.add v name = some (.ok (d, bh, o)) → ∀ ino,
    Tiled v.blocksize (d.store bh o ino)
  found : ∀ d bh o, dir.add v name = some (.ok (d, bh, o)) → ∀ ino ≠ 0,
    (d.store bh o ino).find v name = .entry bh o ino
  others : ∀ d bh o, dir.add v name = some (.ok (d, bh, o)) → ∀ ino ≠ 0, ∀ other,
    Apart name other → (d.store bh o ino).find v other = dir.find v other

def DeletesExactly (v : Device) (dir : Directory) (name : Name) : Prop :=
  ∀ bh o ino, dir.find v name = .entry bh o ino →
    ∃ d, dir.delete bh o = .ok d ∧ Tiled v.blocksize d ∧ d.find v name = .absent ∧
      ∀ other, Apart name other → d.find v other = dir.find v other

def stopsAt (name : Name) (records : List DirEntry) : Option DirEntry :=
  records.find? fun de => de.Stops name

/-- When the search ends at room, the name is not behind it, and no entry without a name is split.
-/
def Fits (dir : Directory) (name : Name) : Prop :=
  ∀ de, stopsAt (truncate name) dir.records = some de → de.matches (truncate name) = false →
    ¬ Present dir name ∧ (de.inode ≠ 0 → de.name ≠ [])

def Once (dir : Directory) (name : Name) : Prop :=
  (dir.records.filter (·.matches (truncate name))).length ≤ 1

theorem truncate_length (name : Name) : (truncate name).length ≤ 255 := by
  unfold truncate
  rw [length_take]
  omega

theorem records_split (hblocks : dir.blocks = front ++ (pre ++ de :: post) :: back) :
    dir.records = (front.flatten ++ pre) ++ de :: (post ++ back.flatten) := by
  unfold Directory.records
  rw [hblocks]
  simp

theorem passed_flatten (hfront : ∀ b ∈ front, Passed name b) (hpre : Passed name pre) :
    Passed name (front.flatten ++ pre) := by
  intro d hd
  rcases mem_append.mp hd with hd | hd
  · obtain ⟨b, hb, hdb⟩ := mem_flatten.mp hd
    exact hfront b hb d hdb
  · exact hpre d hd

theorem stopsAt_split (hblocks : dir.blocks = front ++ (pre ++ de :: post) :: back)
    (hfront : ∀ b ∈ front, Passed name b) (hpre : Passed name pre) (hde : de.Stops name) :
    stopsAt name dir.records = some de := by
  have hpass := passed_flatten hfront hpre
  unfold stopsAt
  rw [records_split hblocks, List.find?_append,
    List.find?_eq_none.mpr fun d hd => by simpa using hpass d hd, Option.none_or,
    List.find?_cons_of_pos (by simpa using hde)]

theorem Tiled.replace (h : Tiled bs dir) (hblocks : dir.blocks = front ++ b :: back)
    (hb' : Chained bs b') : Tiled bs { dir with blocks := front ++ b' :: back } := by
  refine ⟨fun c hc => ?_, ?_⟩
  · have hmem (c : Block) (hc : c ∈ front ∨ c ∈ back) : Chained bs c := by
      refine h.blocks c ?_
      rw [hblocks]
      rcases hc with hc | hc <;> simp [hc]
    rcases mem_append.mp hc with hc | hc
    · exact hmem c (.inl hc)
    · rcases mem_cons.mp hc with rfl | hc
      · exact hb'
      · exact hmem c (.inr hc)
  · rw [h.size, hblocks]
    simp

theorem store_room (h : Tiled bs dir)
    (hblocks : dir.blocks = front ++ (pre ++ de :: post) :: back) (name : Name) (ino : ℕ) :
    Directory.store { dir with blocks := front ++ (pre ++ de.fill name 0 ++ post) :: back }
        front.length (size pre + de.shift) ino =
      { dir with blocks := front ++ (pre ++ de.fill name ino ++ post) :: back } := by
  have hchained := h.blocks (pre ++ de :: post) (by rw [hblocks]; simp)
  unfold Directory.store
  rw [modify_split, setInode_fill fun d hd => hchained.1 d (mem_append_left _ hd)]

theorem store_extended (l : List Block) (m bs : ℕ) (name : Name) (ino : ℕ) :
    Directory.store ⟨l ++ [[⟨0, bs, name⟩]], m⟩ l.length 0 ino = ⟨l ++ [[⟨ino, bs, name⟩]], m⟩ := by
  unfold Directory.store
  rw [modify_split]
  rfl

theorem Outcome.store {d : Directory} {bh : ℕ} (hb : v.blocksize ∈ [1024, 2048, 4096])
    (h : Tiled v.blocksize dir) (hnm : nm.length ≤ 255) (hne : nm ≠ [])
    (hout : Outcome v dir nm (.ok (d, bh, o))) (ino : ℕ) :
    ((∀ de, stopsAt nm dir.records = some de → de.matches nm = false →
        de.inode ≠ 0 → de.name ≠ []) → Tiled v.blocksize (d.store bh o ino)) ∧
      (ino ≠ 0 → lookup nm 0 (d.store bh o ino).blocks = some (bh, o, ino) ∧
        ∀ other ≠ [], other ≠ nm →
          lookup other 0 (d.store bh o ino).blocks = lookup other 0 dir.blocks) := by
  cases hout with
  | @room front back pre post de hblocks hfront hpre hde hroom =>
    rw [store_room h hblocks]
    refine ⟨fun hnamed => ?_, fun hino => ⟨?_, fun other hother hne' => ?_⟩⟩
    · have hchained := h.blocks (pre ++ de :: post) (by rw [hblocks]; simp)
      exact h.replace hblocks ((chained_fill hne hroom hchained ino).mpr
        (hnamed de (stopsAt_split hblocks hfront hpre (.inr hroom)) hde))
    · rw [lookup_append, lookup_eq_none fun b hb => (hfront b hb).matches, Option.none_or, lookup,
        place_fill hne hino hpre.matches hde, Nat.zero_add]
      rfl
    · rw [hblocks]
      exact lookup_replace (place_fill_other hother hne' hroom ino)
  | extended hall =>
    rw [store_extended]
    refine ⟨fun _ => ⟨fun c hc => ?_, ?_⟩, fun hino => ⟨?_, fun other hother hne' => ?_⟩⟩
    · rcases mem_append.mp hc with hc | hc
      · exact h.blocks c hc
      · rw [mem_singleton.mp hc]
        refine ⟨fun e he => ?_, by simp⟩
        rw [mem_singleton.mp he]
        exact check_whole nm hb hnm ino
    · rw [h.size]
      simp only [length_append, length_singleton]
      ring
    · rw [lookup_append, lookup_eq_none fun b hb => (hall b hb).matches, Option.none_or, lookup,
        place, if_pos ((matches_iff hne).mpr ⟨hino, rfl⟩), Nat.zero_add]
      rfl
    · rw [lookup_append, lookup, place, if_neg fun hm => hne' ((matches_iff hother).mp hm).2, place,
        lookup, Option.map_none, Option.none_or, Option.or_none]

theorem stopsAt_eq_none (hall : ∀ b ∈ dir.blocks, Passed name b) :
    stopsAt name dir.records = none := by
  refine List.find?_eq_none.mpr fun d hd => ?_
  obtain ⟨b, hb, hdb⟩ := mem_flatten.mp hd
  simpa using hall b hb d hdb

theorem not_present (hall : ∀ b ∈ dir.blocks, Passed (truncate name) b) : ¬ Present dir name := by
  rintro ⟨de, hde, hmatch⟩
  obtain ⟨b, hb, hdb⟩ := mem_flatten.mp hde
  exact hall b hb de hdb (.inl hmatch)

section
variable (hb : v.blocksize ∈ [1024, 2048, 4096]) (h : Tiled v.blocksize dir)
  (hread : ∀ j, v.readable j = true) (hname : name ≠ [])
include hb h hread hname

theorem add_outcome :
    (dir.blocks = [] ∧ dir.add v name = some (.error .enoent)) ∨
      ∃ r, dir.add v name = some r ∧ Outcome v dir (truncate name) r := by
  unfold Directory.add
  rw [if_neg (truncate_ne_nil hname)]
  have hbs : 0 < v.blocksize := by
    simp only [mem_cons, not_mem_nil, or_false] at hb
    omega
  cases hblocks : dir.blocks with
  | nil =>
    left
    rw [h.size, hblocks, length_nil, Nat.zero_mul, if_pos rfl]
    exact ⟨rfl, rfl⟩
  | cons b back =>
    right
    have hlen : dir.blocks.length ≤ dir.size := by
      rw [h.size]
      exact Nat.le_mul_of_pos_right _ hbs
    have hpos : 0 < dir.blocks.length := by
      rw [hblocks]
      simp
    rw [if_neg (by omega), if_neg (by simp [hread 0])]
    have hloop := addLoop_outcome (n := dir.size + 1) hb h hread (truncate_length name)
      (truncate_ne_nil hname) (show dir.blocks = [] ++ b :: back from hblocks) (by simp)
      (by rw [length_nil]; omega)
    rw [length_nil, Nat.zero_mul] at hloop
    exact hloop

theorem addsExactly_iff : AddsExactly v dir name ↔ Fits dir name := by
  have hbs : 0 < v.blocksize := by
    simp only [mem_cons, not_mem_nil, or_false] at hb
    omega
  constructor
  · intro hadds de hstop hde
    rcases add_outcome hb h hread hname with ⟨hblocks, -⟩ | ⟨r, hr, hout⟩
    · rw [stopsAt_eq_none (by simp [hblocks])] at hstop
      exact absurd hstop (by simp)
    · cases hout with
      | @present front back pre post e hblocks hfront hpre he =>
        rw [stopsAt_split hblocks hfront hpre (.inl he)] at hstop
        rw [Option.some.inj hstop, hde] at he
        exact absurd he (by decide)
      | @room front back pre post e hblocks hfront hpre he hroom =>
        rw [stopsAt_split hblocks hfront hpre (.inr hroom)] at hstop
        obtain rfl := Option.some.inj hstop
        refine ⟨fun hpresent => ?_, ?_⟩
        · rw [hadds.eexist.mpr hpresent] at hr
          simp at hr
        · have htiled := hadds.tiled _ _ _ hr 1
          rw [store_room h hblocks] at htiled
          have hchained := h.blocks (pre ++ e :: post) (by rw [hblocks]; simp)
          exact (chained_fill (truncate_ne_nil hname) hroom hchained 1).mp
            (htiled.blocks _ (by simp))
      | full hall =>
        rw [stopsAt_eq_none hall] at hstop
        exact absurd hstop (by simp)
      | extended hall =>
        rw [stopsAt_eq_none hall] at hstop
        exact absurd hstop (by simp)
  · intro hfits
    rcases add_outcome hb h hread hname with ⟨hblocks, hr⟩ | ⟨r, hr, hout⟩
    · refine ⟨⟨_, hr⟩, ?_, ?_, ?_, ?_⟩
      · rw [hr]
        exact iff_of_false (by simp) (not_present (by simp [hblocks]))
      all_goals
        intro d bh o hok
        rw [hr] at hok
        simp at hok
    · have hstored (d : Directory) (bh o ino : ℕ) (hok : dir.add v name = some (.ok (d, bh, o))) :=
        Outcome.store hb h (truncate_length name) (truncate_ne_nil hname)
          (by rw [hr] at hok; exact Option.some.inj hok ▸ hout) ino
      have hnamed (de : DirEntry) (hstop : stopsAt (truncate name) dir.records = some de)
          (hde : de.matches (truncate name) = false) := (hfits de hstop hde).2
      refine ⟨⟨r, hr⟩, ?_, ?_, ?_, ?_⟩
      · rw [hr]
        cases hout with
        | @present front back pre post e hblocks hfront hpre he =>
          refine iff_of_true rfl ⟨e, ?_, he⟩
          rw [records_split hblocks]
          simp
        | @room front back pre post e hblocks hfront hpre he hroom =>
          refine iff_of_false (by simp) ?_
          exact (hfits e (stopsAt_split hblocks hfront hpre (.inr hroom)) he).1
        | full hall => exact iff_of_false (by simp) (not_present hall)
        | extended hall => exact iff_of_false (by simp) (not_present hall)
      · intro d bh o hok ino
        exact (hstored d bh o ino hok).1 hnamed
      · intro d bh o hok ino hino
        obtain ⟨htiled, hlookup⟩ := hstored d bh o ino hok
        rw [find_eq hbs (htiled hnamed) hread, (hlookup hino).1]
        rfl
      · intro d bh o hok ino hino other hother
        obtain ⟨htiled, hlookup⟩ := hstored d bh o ino hok
        rw [find_eq hbs (htiled hnamed) hread, find_eq hbs h hread,
          (hlookup hino).2 _ (truncate_ne_nil hother.1) hother.2]

end

theorem delete_first (h : Tiled bs dir)
    (hblocks : dir.blocks = front ++ (pre ++ de :: post) :: back) :
    dir.delete front.length (size pre) =
        .ok { dir with blocks := front ++ (removed pre de ++ post) :: back } ∧
      Tiled bs { dir with blocks := front ++ (removed pre de ++ post) :: back } := by
  have hchained := h.blocks (pre ++ de :: post) (by rw [hblocks]; simp)
  refine ⟨?_, h.replace hblocks (chained_removed hchained)⟩
  unfold Directory.delete
  rw [hblocks, getD_split, deleteEntry_eq hchained.1]
  dsimp only
  rw [set_split]

theorem place_removed_other (hother : other ≠ []) (hde : de.matches other = false) :
    place other 0 (removed pre de ++ post) = place other 0 (pre ++ de :: post) := by
  rw [place_append, place_removed hother, size_removed, place_append other 0 pre, place,
    if_neg (by rw [hde]; decide), Nat.add_assoc]

theorem deletesExactly_iff (hbs : 0 < v.blocksize) (h : Tiled v.blocksize dir)
    (hread : ∀ j, v.readable j = true) (hname : name ≠ []) :
    DeletesExactly v dir name ↔ Once dir name := by
  have hne := truncate_ne_nil hname
  unfold DeletesExactly Once
  rw [find_eq hbs h hread]
  cases hlookup : lookup (truncate name) 0 dir.blocks with
  | none =>
    have hno := lookup_eq_none_iff.mp hlookup
    refine iff_of_true (fun bh o ino hfound => by simp [Found.ofLookup] at hfound) ?_
    rw [filter_eq_nil_iff.mpr fun d hd => ?_]
    · exact Nat.zero_le 1
    · obtain ⟨b, hb, hdb⟩ := mem_flatten.mp hd
      simpa using hno b hb d hdb
  | some x =>
    obtain ⟨front, pre, de, post, back, hblocks, rfl, hde, hfront, hpre⟩ := lookup_some hlookup
    obtain ⟨hdelete, htiled⟩ := delete_first h hblocks
    have hrest : lookup (truncate name) 0 (front ++ (removed pre de ++ post) :: back) = none ↔
        ∀ d ∈ post ++ back.flatten, d.matches (truncate name) = false := by
      rw [lookup_append, lookup_eq_none hfront, Option.none_or, lookup, Option.or_eq_none_iff,
        Option.map_eq_none_iff, place_append, place_removed hne, place_eq_none hpre,
        Option.none_or, place_eq_none_iff, lookup_eq_none_iff]
      constructor
      · rintro ⟨hpost, hback⟩ d hd
        rcases mem_append.mp hd with hd | hd
        · exact hpost d hd
        · obtain ⟨b, hb, hdb⟩ := mem_flatten.mp hd
          exact hback b hb d hdb
      · intro hall
        exact ⟨fun d hd => hall d (mem_append_left _ hd),
          fun b hb d hd => hall d (mem_append_right _ (mem_flatten.mpr ⟨b, hb, hd⟩))⟩
    have hcount : (dir.records.filter (·.matches (truncate name))).length ≤ 1 ↔
        ∀ d ∈ post ++ back.flatten, d.matches (truncate name) = false := by
      have hbefore : (front.flatten ++ pre).filter (·.matches (truncate name)) = [] := by
        refine filter_eq_nil_iff.mpr fun d hd => ?_
        rcases mem_append.mp hd with hd | hd
        · obtain ⟨b, hb, hdb⟩ := mem_flatten.mp hd
          simpa using hfront b hb d hdb
        · simpa using hpre d hd
      have hone (m : ℕ) : m + 1 ≤ 1 ↔ m = 0 := by omega
      rw [records_split hblocks, filter_append, hbefore, nil_append,
        filter_cons_of_pos hde, length_cons, hone, length_eq_zero_iff,
        filter_eq_nil_iff]
      simp
    rw [hcount, ← hrest]
    constructor
    · intro hdel
      obtain ⟨d, hd, -, habsent, -⟩ := hdel _ _ _ rfl
      rw [Nat.zero_add, hdelete] at hd
      obtain rfl := Except.ok.inj hd
      rw [find_eq hbs htiled hread] at habsent
      cases hl : lookup (truncate name) 0 (front ++ (removed pre de ++ post) :: back) with
      | none => rfl
      | some x =>
        rw [hl] at habsent
        simp [Found.ofLookup] at habsent
    · intro hnone bh o ino hfound
      simp only [Found.ofLookup, Nat.zero_add, Found.entry.injEq] at hfound
      obtain ⟨rfl, rfl, rfl⟩ := hfound
      refine ⟨_, hdelete, htiled, ?_, fun other hother => ?_⟩
      · rw [find_eq hbs htiled hread, hnone]
        rfl
      · have hother' := truncate_ne_nil hother.1
        rw [find_eq hbs htiled hread, find_eq hbs h hread]
        rw [hblocks, lookup_replace (place_removed_other hother' ?_)]
        by_contra hmatch
        rw [Bool.not_eq_false] at hmatch
        exact hother.2 (((matches_iff hother').mp hmatch).2.trans ((matches_iff hne).mp hde).2.symm)

/-- In a tiled directory that can be read, additions and deletions of a name are those of a map as
long as the search of an addition does not end at room before the name or at an entry without a
name, and the name is not there twice. -/
theorem directory_map_iff (hb : v.blocksize ∈ [1024, 2048, 4096]) (h : Tiled v.blocksize dir)
    (hread : ∀ j, v.readable j = true) (hname : name ≠ []) :
    AddsExactly v dir name ∧ DeletesExactly v dir name ↔ Fits dir name ∧ Once dir name := by
  have hbs : 0 < v.blocksize := by
    simp only [mem_cons, not_mem_nil, or_false] at hb
    omega
  rw [addsExactly_iff hb h hread hname, deletesExactly_iff hbs h hread hname]

def holeDir : Directory where
  blocks := [[⟨2, 12, dot⟩, ⟨2, 12, dotdot⟩, ⟨0, 16, []⟩, ⟨5, 984, [0x61]⟩]]
  size := 1024

def goodDisk : Device where
  blocksize := 1024
  readable _ := true
  cached _ := false
  space := true

theorem holeDir_tiled : Tiled 1024 holeDir := by
  refine ⟨fun b hb => ?_, rfl⟩
  rw [mem_singleton.mp hb]
  exact ⟨by decide, rfl⟩

theorem directory_map_iff_dotdot :
    Tiled 1024 holeDir ∧
      (AddsExactly goodDisk holeDir dotdot ∧ DeletesExactly goodDisk holeDir dotdot ↔
        Fits holeDir dotdot ∧ Once holeDir dotdot) :=
  ⟨holeDir_tiled, directory_map_iff (by decide) holeDir_tiled (fun _ => rfl) (by decide)⟩

/-- The name behind the free record is added a second time. -/
theorem holeDir_added_twice :
    Tiled 1024 holeDir ∧ Present holeDir [0x61] ∧
      holeDir.add goodDisk [0x61] = some (.ok
        ({ holeDir with
            blocks := [[⟨2, 12, dot⟩, ⟨2, 12, dotdot⟩, ⟨0, 16, [0x61]⟩, ⟨5, 984, [0x61]⟩]] },
          0, 24)) ∧
      ¬ AddsExactly goodDisk holeDir [0x61] := by
  have hpresent : Present holeDir [0x61] := ⟨⟨5, 984, [0x61]⟩, by decide, by decide⟩
  refine ⟨holeDir_tiled, hpresent, rfl, fun h => ?_⟩
  have heexist := h.eexist.mpr hpresent
  have hok : holeDir.add goodDisk [0x61] ≠ some (.error .eexist) := by decide
  exact hok heexist

end LinuxKernel.Ext2Dir
