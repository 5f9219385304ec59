import LinuxKernel.Ext2ScanModel

/-!
# What the scans of a directory read

All scans end.  A record that has passed the check with a directory lies in its block, with its
name; but the check reads the header first, and the header may cross the end of the block.
`ext2_delete_entry` checks without a directory, and `empty_dir` takes two records unchecked.
-/

namespace LinuxKernel.Ext2Scan
open List

open TurnRun

variable {bread : ℕ → Option Bytes} {blocksize size pos k p de offset : ℕ} {m : Bytes}
variable {name : List (BitVec 8)}

def Safe (blocksize : ℕ) (looks : List Look) : Prop := ∀ l ∈ looks, l.Inside blocksize

theorem check_spec {dir : Option ℕ} (h : checkDirEntry dir m de = true) :
    12 ≤ recLen m de ∧ recLen m de % 4 = 0 ∧ nameLen m de + 8 ≤ recLen m de ∧
      ∀ blocksize, dir = some blocksize → de + recLen m de ≤ blocksize := by
  unfold checkDirEntry dirRecLen at h
  simp only [Bool.and_eq_true, decide_eq_true_eq] at h
  obtain ⟨⟨⟨hmin, hmod⟩, hname⟩, hend⟩ := h
  refine ⟨hmin, hmod, by omega, ?_⟩
  rintro blocksize rfl
  exact decide_eq_true_eq.mp hend

theorem header_inside_iff : (header de).Inside blocksize ↔ de + 8 ≤ blocksize := Iff.rfl

theorem matchLooks_inside (h : checkDirEntry (some blocksize) m de = true) :
    Safe blocksize (matchLooks name m de) := by
  obtain ⟨hmin, -, hname, hend⟩ := check_spec h
  have hin := hend blocksize rfl
  unfold matchLooks nameAt
  intro l hl
  split_ifs at hl with h1 h2 h3
  · exact absurd hl not_mem_nil
  · rw [mem_singleton.mp hl]
    change de + 8 + 2 ≤ blocksize
    omega
  · rw [mem_singleton.mp hl]
    change de + 8 + nameLen m de ≤ blocksize
    omega
  · exact absurd hl not_mem_nil

/-- The records of the directory lead to place `p` of block `k`, and none before it has the name. -/
inductive FindComes (bread : ℕ → Option Bytes) (blocksize size : ℕ) (name : List (BitVec 8)) :
    ℕ → ℕ → Prop
  | start (h : 0 < size) : FindComes bread blocksize size name 0 0
  | record {k p : ℕ} {m : Bytes} (h : FindComes bread blocksize size name k p)
      (hm : bread k = some m) (hcheck : checkDirEntry (some blocksize) m p = true)
      (hno : matchName name m p = false) :
      FindComes bread blocksize size name k (p + recLen m p)
  | block {k : ℕ} (h : FindComes bread blocksize size name k blocksize)
      (hsize : (k + 1) * blocksize < size) : FindComes bread blocksize size name (k + 1) 0

def FindState.Ok (bread : ℕ → Option Bytes) (blocksize size : ℕ) (name : List (BitVec 8)) :
    FindState → Prop
  | .outer k offset =>
    offset = k * blocksize ∧ (offset < size → FindComes bread blocksize size name k 0)
  | .inner k offset m de =>
    offset = k * blocksize + de ∧ k * blocksize < size ∧ bread k = some m ∧ de ≤ blocksize ∧
      de % 4 = 0 ∧ FindComes bread blocksize size name k de

def FindState.measure (blocksize size : ℕ) : FindState → ℕ
  | .outer _ offset => 2 * (size + blocksize + 1 - offset)
  | .inner _ offset _ de =>
    if de < blocksize then 2 * (size + blocksize + 1 - offset) - 1
    else 2 * (size + blocksize + 1 - offset) + 1

theorem findTurn_ok (hbs : 0 < blocksize) {s s' : FindState} (hs : s.Ok bread blocksize size name)
    (h : (findTurn bread blocksize size name s).2 = .inl s') :
    s'.Ok bread blocksize size name ∧ s'.measure blocksize size < s.measure blocksize size := by
  cases s with
  | outer k offset =>
    obtain ⟨hoffset, hcomes⟩ := hs
    unfold findTurn at h
    dsimp only at h
    split_ifs at h with hsize
    cases hm : bread k with
    | none =>
      rw [hm] at h
      simp at h
    | some m =>
      rw [hm] at h
      obtain rfl := Sum.inl.inj h
      refine ⟨⟨hoffset, by omega, hm, Nat.zero_le _, rfl, hcomes (by omega)⟩, ?_⟩
      unfold FindState.measure
      dsimp only
      rw [if_pos hbs]
      omega
  | inner k offset m de =>
    obtain ⟨hoffset, hsize, hm, hde, hmod, hcomes⟩ := hs
    unfold findTurn at h
    dsimp only at h
    split_ifs at h with hend hcheck hmatch
    · obtain rfl := Sum.inl.inj h
      obtain rfl : de = blocksize := by omega
      have hsucc : k * de + de = (k + 1) * de := by ring
      refine ⟨⟨by rw [hoffset, hsucc], fun hlt => ?_⟩, ?_⟩
      · exact .block hcomes (by rw [← hsucc, ← hoffset]; exact hlt)
      · unfold FindState.measure
        dsimp only
        rw [if_neg (lt_irrefl _)]
        omega
    · obtain rfl := Sum.inl.inj h
      rw [Bool.not_eq_false] at hcheck
      obtain ⟨hmin, hmod', -, hin⟩ := check_spec hcheck
      have hin := hin blocksize rfl
      refine ⟨⟨by rw [hoffset, Nat.add_assoc], hsize, hm, hin, by omega,
        .record hcomes hm hcheck ?_⟩, ?_⟩
      · simpa using hmatch
      · unfold FindState.measure
        dsimp only
        split_ifs <;> omega

theorem FindComes.read (h : FindComes bread blocksize size name k p) (hp : 0 < p) :
    ∃ m, bread k = some m := by
  cases h with
  | start => exact absurd hp (lt_irrefl 0)
  | record _ hm => exact ⟨_, hm⟩
  | block => exact absurd hp (lt_irrefl 0)

theorem findComes_comes (h : FindComes bread blocksize size name k p) (hbs : 0 < blocksize)
    (hm : bread k = some m) : Comes (findTurn bread blocksize size name) (.outer 0 0)
      (.inner k (k * blocksize + p) m p) := by
  induction h generalizing m with
  | start hsize =>
    refine .turn .start ?_
    unfold findTurn
    dsimp only
    rw [if_neg (by omega), hm, Nat.zero_mul]
  | @record k p m' h hm' hcheck hno ih =>
    obtain rfl := Option.some.inj (hm.symm.trans hm')
    refine .turn (ih hm) ?_
    have hin := (check_spec hcheck).2.2.2 blocksize rfl
    have hmin := (check_spec hcheck).1
    unfold findTurn
    dsimp only
    rw [if_neg (by omega), if_neg (by rw [hcheck]; decide), if_neg (by rw [hno]; decide),
      Nat.add_assoc]
  | @block k h hsize ih =>
    obtain ⟨m', hm'⟩ := h.read hbs
    have hsucc : k * blocksize + blocksize = (k + 1) * blocksize := by ring
    have hout : Comes (findTurn bread blocksize size name) (.outer 0 0)
        (.outer (k + 1) ((k + 1) * blocksize)) := by
      refine .turn (ih hm') ?_
      unfold findTurn
      dsimp only
      rw [if_pos le_rfl, hsucc]
    refine .turn hout ?_
    unfold findTurn
    dsimp only
    rw [if_neg (by omega), hm]
    rfl

theorem findEntry_safe_iff (hbs : 12 ≤ blocksize) (hmod : blocksize % 4 = 0)
    (bread : ℕ → Option Bytes) (size : ℕ) (name : List (BitVec 8)) :
    (∃ r, (findEntry bread blocksize size name).2 = some r) ∧
      (Safe blocksize (findEntry bread blocksize size name).1 ↔
        ∀ k, ¬ FindComes bread blocksize size (name.take 255) k (blocksize - 4)) := by
  have hpos : 0 < blocksize := by omega
  have hstart : (FindState.outer 0 0).Ok bread blocksize size (name.take 255) :=
    ⟨(Nat.zero_mul _).symm, fun h => .start h⟩
  obtain ⟨hends, htrace⟩ := run_spec (n := 2 * (size + blocksize + 2))
    (FindState.measure blocksize size) hstart (fun s s' => findTurn_ok hpos)
    (by change 2 * (size + blocksize + 1 - 0) < _; omega)
  refine ⟨hends, ?_⟩
  constructor
  · intro hsafe k hcomes
    obtain ⟨m, hm⟩ := hcomes.read (by omega)
    have hlook : header (blocksize - 4) ∈ (findTurn bread blocksize size (name.take 255)
        (.inner k (k * blocksize + (blocksize - 4)) m (blocksize - 4))).1 := by
      unfold findTurn
      dsimp only
      split_ifs
      · omega
      · simp
      · simp
      · simp
    have hinside := hsafe _ ((htrace _).mpr ⟨_, findComes_comes hcomes hpos hm, hlook⟩)
    rw [header_inside_iff] at hinside
    omega
  · intro hno l hl
    obtain ⟨s, hcomes, hl⟩ := (htrace l).mp hl
    have hok := hcomes.invariant hstart fun s s' hs h => (findTurn_ok hpos hs h).1
    cases s with
    | outer k offset =>
      unfold findTurn at hl
      dsimp only at hl
      split_ifs at hl with hsize
      · exact absurd hl not_mem_nil
      · cases hm : bread k <;> simp [hm] at hl
    | inner k offset m de =>
      obtain ⟨-, -, hm, hde, hde4, hcomes'⟩ := hok
      have hne : de ≠ blocksize - 4 := by
        rintro rfl
        exact hno k hcomes'
      unfold findTurn at hl
      dsimp only at hl
      split_ifs at hl with hend hcheck hmatch
      · exact absurd hl not_mem_nil
      · rw [mem_singleton.mp hl, header_inside_iff]
        omega
      all_goals
        rw [Bool.not_eq_false] at hcheck
        rcases mem_cons.mp hl with rfl | hl
        · rw [header_inside_iff]
          omega
        · exact matchLooks_inside hcheck l hl

/-! ## `ext2_readdir` -/

/-- From position `pos` on, free records and blocks that cannot be read lead to place `p` of block
`k`. -/
inductive ReadComes (bread : ℕ → Option Bytes) (blocksize size pos : ℕ) : ℕ → ℕ → Prop
  | start : ReadComes bread blocksize size pos (pos / blocksize) (pos % blocksize)
  | record {k p : ℕ} {m : Bytes} (h : ReadComes bread blocksize size pos k p)
      (hm : bread k = some m) (hsize : k * blocksize + p < size)
      (hcheck : checkDirEntry (some blocksize) m p = true) (hfree : inode m p = 0) :
      ReadComes bread blocksize size pos k (p + recLen m p)
  | block {k : ℕ} (h : ReadComes bread blocksize size pos k blocksize) :
      ReadComes bread blocksize size pos (k + 1) 0
  | skip {k p : ℕ} (h : ReadComes bread blocksize size pos k p) (hm : bread k = none)
      (hsize : k * blocksize + p < size) : ReadComes bread blocksize size pos (k + 1) 0

def ReadState.Ok (bread : ℕ → Option Bytes) (blocksize size start : ℕ) : ReadState → Prop
  | .outer pos => ReadComes bread blocksize size start (pos / blocksize) (pos % blocksize)
  | .inner pos offset m => ∃ k, pos = k * blocksize + offset ∧ bread k = some m ∧
      offset ≤ blocksize ∧ ReadComes bread blocksize size start k offset

def ReadState.measure (blocksize size : ℕ) : ReadState → ℕ
  | .outer pos => 2 * (size + 1 - pos)
  | .inner pos offset _ =>
    if offset < blocksize ∧ pos < size then 2 * (size + 1 - pos) - 1 else 2 * (size + 1 - pos) + 1

theorem place_of_position (hp : p < blocksize) :
    (k * blocksize + p) / blocksize = k ∧ (k * blocksize + p) % blocksize = p := by
  have hbs : 0 < blocksize := Nat.zero_lt_of_lt hp
  constructor
  · rw [Nat.add_comm, Nat.add_mul_div_right _ _ hbs, Nat.div_eq_of_lt hp, Nat.zero_add]
  · rw [Nat.add_comm, Nat.add_mul_mod_self_right, Nat.mod_eq_of_lt hp]

theorem position_of_place (pos blocksize : ℕ) :
    pos / blocksize * blocksize + pos % blocksize = pos := Nat.div_add_mod' pos blocksize

theorem next_block (hbs : 0 < blocksize) (pos : ℕ) :
    pos + (blocksize - pos % blocksize) = (pos / blocksize + 1) * blocksize := by
  have hpos := position_of_place pos blocksize
  have hlt := Nat.mod_lt pos hbs
  rw [Nat.add_mul, Nat.one_mul]
  omega

theorem readTurn_ok (hbs : 0 < blocksize) {s s' : ReadState} (hs : s.Ok bread blocksize size pos)
    (h : (readTurn bread blocksize size s).2 = .inl s') :
    s'.Ok bread blocksize size pos ∧ s'.measure blocksize size < s.measure blocksize size := by
  cases s with
  | outer cur =>
    have hlt := Nat.mod_lt cur hbs
    unfold readTurn at h
    dsimp only at h
    split_ifs at h with hsize
    cases hm : bread (cur / blocksize) with
    | none =>
      rw [hm] at h
      obtain rfl := Sum.inl.inj h
      refine ⟨?_, ?_⟩
      · change ReadComes _ _ _ _ _ _
        rw [next_block hbs, Nat.mul_div_cancel _ hbs, Nat.mul_mod_left]
        exact .skip hs hm (by rw [position_of_place]; omega)
      · change 2 * (size + 1 - (cur + (blocksize - cur % blocksize))) < 2 * (size + 1 - cur)
        omega
    | some m =>
      rw [hm] at h
      obtain rfl := Sum.inl.inj h
      refine ⟨⟨_, (position_of_place cur blocksize).symm, hm, hlt.le, hs⟩, ?_⟩
      unfold ReadState.measure
      dsimp only
      rw [if_pos ⟨hlt, by omega⟩]
      omega
  | inner cur offset m =>
    obtain ⟨k, hcur, hm, hle, hcomes⟩ := hs
    unfold readTurn at h
    dsimp only at h
    by_cases hend : offset < blocksize ∧ cur < size
    · rw [if_neg (not_not.mpr hend)] at h
      by_cases hcheck : checkDirEntry (some blocksize) m offset = false
      · rw [if_pos hcheck] at h
        simp at h
      by_cases hfree : inode m offset = 0
      · rw [if_neg hcheck, if_neg (not_not.mpr hfree)] at h
        obtain rfl := Sum.inl.inj h
        rw [Bool.not_eq_false] at hcheck
        obtain ⟨hmin, -, -, hin⟩ := check_spec hcheck
        refine ⟨⟨k, by rw [hcur, Nat.add_assoc], hm, hin blocksize rfl,
          .record hcomes hm (hcur ▸ hend.2) hcheck hfree⟩, ?_⟩
        unfold ReadState.measure
        dsimp only
        split_ifs <;> omega
      · rw [if_neg hcheck, if_pos hfree] at h
        simp at h
    · rw [if_pos hend] at h
      obtain rfl := Sum.inl.inj h
      refine ⟨?_, ?_⟩
      · change ReadComes _ _ _ _ _ _
        rcases Nat.lt_or_eq_of_le hle with hlt | rfl
        · rw [hcur, (place_of_position hlt).1, (place_of_position hlt).2]
          exact hcomes
        · have hsucc : k * offset + offset = (k + 1) * offset := by ring
          rw [hcur, hsucc, Nat.mul_div_cancel _ hbs, Nat.mul_mod_left]
          exact .block hcomes
      · unfold ReadState.measure
        dsimp only
        rw [if_neg hend]
        omega

theorem readTurn_outer (h : pos < size) (hm : bread (pos / blocksize) = some m) :
    (readTurn bread blocksize size (.outer pos)).2 = .inl (.inner pos (pos % blocksize) m) := by
  unfold readTurn
  dsimp only
  rw [if_neg (by omega), hm]

theorem readComes_comes (hbs : 0 < blocksize) (h : ReadComes bread blocksize size pos k p) :
    (p < blocksize ∧
        Comes (readTurn bread blocksize size) (.outer pos) (.outer (k * blocksize + p))) ∨
      ∃ m, bread k = some m ∧
        Comes (readTurn bread blocksize size) (.outer pos) (.inner (k * blocksize + p) p m) := by
  induction h with
  | start =>
    refine .inl ⟨Nat.mod_lt pos hbs, ?_⟩
    rw [position_of_place]
    exact .start
  | @record k p m h hm hsize hcheck hfree ih =>
    obtain ⟨hmin, -, -, hin⟩ := check_spec hcheck
    have hin := hin blocksize rfl
    have hlt : p < blocksize := by omega
    have hinner : Comes (readTurn bread blocksize size) (.outer pos)
        (.inner (k * blocksize + p) p m) := by
      rcases ih with ⟨-, hcomes⟩ | ⟨m', hm', hcomes⟩
      · refine .turn hcomes ?_
        have hplace := place_of_position (k := k) hlt
        rw [readTurn_outer hsize (by rw [hplace.1]; exact hm), hplace.2]
      · obtain rfl := Option.some.inj (hm.symm.trans hm')
        exact hcomes
    refine .inr ⟨m, hm, .turn hinner ?_⟩
    unfold readTurn
    dsimp only
    rw [if_neg (not_not.mpr ⟨hlt, hsize⟩), if_neg (by rw [hcheck]; decide),
      if_neg (not_not.mpr hfree), Nat.add_assoc]
  | @block k h ih =>
    left
    refine ⟨hbs, ?_⟩
    have hsucc : k * blocksize + blocksize = (k + 1) * blocksize := by ring
    rcases ih with ⟨hlt, -⟩ | ⟨m, -, hcomes⟩
    · exact absurd hlt (lt_irrefl _)
    · refine .turn hcomes ?_
      unfold readTurn
      dsimp only
      rw [if_pos (fun hin => absurd hin.1 (lt_irrefl _)), hsucc]
      rfl
  | @skip k p h hm hsize ih =>
    left
    refine ⟨hbs, ?_⟩
    rcases ih with ⟨hlt, hcomes⟩ | ⟨m, hm', -⟩
    · refine .turn hcomes ?_
      have hplace := place_of_position (k := k) hlt
      unfold readTurn
      dsimp only
      rw [if_neg (by omega), hplace.1, hm, next_block hbs, hplace.1]
      rfl
    · rw [hm] at hm'
      exact absurd hm' (by simp)

theorem readdir_safe_iff (hbs : 0 < blocksize) (bread : ℕ → Option Bytes) (size pos : ℕ) :
    (∃ r, (readdir bread blocksize size pos).2 = some r) ∧
      (Safe blocksize (readdir bread blocksize size pos).1 ↔
        ∀ k p m, ReadComes bread blocksize size pos k p → bread k = some m → p < blocksize →
          k * blocksize + p < size → p + 8 ≤ blocksize) := by
  have hstart : (ReadState.outer pos).Ok bread blocksize size pos := ReadComes.start
  obtain ⟨hends, htrace⟩ := run_spec (n := 2 * (size + blocksize + 2))
    (ReadState.measure blocksize size) hstart (fun s s' => readTurn_ok hbs)
    (by change 2 * (size + 1 - pos) < _; omega)
  refine ⟨hends, ?_⟩
  constructor
  · intro hsafe k p m hcomes hm hlt hsize
    have hinner : Comes (readTurn bread blocksize size) (.outer pos)
        (.inner (k * blocksize + p) p m) := by
      rcases readComes_comes hbs hcomes with ⟨-, hc⟩ | ⟨m', hm', hc⟩
      · have hplace := place_of_position (k := k) hlt
        have hturn := readTurn_outer hsize (by rw [hplace.1]; exact hm)
        rw [hplace.2] at hturn
        exact .turn hc hturn
      · obtain rfl := Option.some.inj (hm.symm.trans hm')
        exact hc
    have hlook : header p ∈ (readTurn bread blocksize size (.inner (k * blocksize + p) p m)).1 := by
      unfold readTurn
      dsimp only
      rw [if_neg (not_not.mpr ⟨hlt, hsize⟩)]
      split_ifs <;> simp
    exact header_inside_iff.mp (hsafe _ ((htrace _).mpr ⟨_, hinner, hlook⟩))
  · intro hin l hl
    obtain ⟨s, hcomes, hl⟩ := (htrace l).mp hl
    have hok := hcomes.invariant hstart fun s s' hs h => (readTurn_ok hbs hs h).1
    cases s with
    | outer cur =>
      unfold readTurn at hl
      dsimp only at hl
      split_ifs at hl
      · exact absurd hl not_mem_nil
      · cases hm : bread (cur / blocksize) <;> simp [hm] at hl
    | inner cur offset m =>
      obtain ⟨k, hcur, hm, -, hcomes'⟩ := hok
      unfold readTurn at hl
      dsimp only at hl
      by_cases hend : ¬ (offset < blocksize ∧ cur < size)
      · rw [if_pos hend] at hl
        exact absurd hl not_mem_nil
      rw [not_not] at hend
      have hheader := hin k offset m hcomes' hm hend.1 (hcur ▸ hend.2)
      split_ifs at hl with hcheck hused
      · rw [mem_singleton.mp hl]
        exact hheader
      · rw [Bool.not_eq_false] at hcheck
        obtain ⟨-, -, hname, hinside⟩ := check_spec hcheck
        have hinside := hinside blocksize rfl
        rcases mem_cons.mp hl with rfl | hl
        · exact hheader
        · rw [mem_singleton.mp hl]
          change offset + 8 + nameLen m offset ≤ blocksize
          omega
      · rw [mem_singleton.mp hl]
        exact hheader

/-- The records of the block lead to `p`, not through the one that is to be deleted. -/
inductive DeleteComes (blocksize : ℕ) (m : Bytes) (dir : ℕ) : ℕ → Prop
  | start : DeleteComes blocksize m dir 0
  | record {p : ℕ} (h : DeleteComes blocksize m dir p) (hp : p < blocksize)
      (hcheck : checkDirEntry none m p = true) (hne : p ≠ dir) :
      DeleteComes blocksize m dir (p + recLen m p)

theorem deleteTurn_ok {dir p q : ℕ} (hs : DeleteComes blocksize m dir p ∧ p % 4 = 0)
    (h : (deleteTurn blocksize m dir p).2 = .inl q) :
    (DeleteComes blocksize m dir q ∧ q % 4 = 0) ∧ blocksize + 1 - q < blocksize + 1 - p := by
  unfold deleteTurn at h
  split_ifs at h with hend hcheck heq
  obtain rfl := Sum.inl.inj h
  rw [Bool.not_eq_false] at hcheck
  obtain ⟨hmin, hmod, -, -⟩ := check_spec hcheck
  exact ⟨⟨.record hs.1 (by omega) hcheck heq, by omega⟩, by omega⟩

theorem deleteComes_comes {dir p : ℕ} (h : DeleteComes blocksize m dir p) :
    Comes (deleteTurn blocksize m dir) 0 p := by
  induction h with
  | start => exact .start
  | @record p h hp hcheck hne ih =>
    refine .turn ih ?_
    unfold deleteTurn
    rw [if_neg (by omega), if_neg (by rw [hcheck]; decide), if_neg hne]

theorem deleteEntry_safe_iff (hbs : 12 ≤ blocksize) (hmod : blocksize % 4 = 0) (m : Bytes)
    (dir : ℕ) :
    (∃ r, (deleteEntry blocksize m dir).2 = some r) ∧
      (Safe blocksize (deleteEntry blocksize m dir).1 ↔
        ∀ p < blocksize, DeleteComes blocksize m dir p →
          p ≠ blocksize - 4 ∧ checkDirEntry none m p = true) := by
  have hstart : DeleteComes blocksize m dir 0 ∧ 0 % 4 = 0 := ⟨.start, rfl⟩
  obtain ⟨hends, htrace⟩ := run_spec (n := blocksize + 2) (fun p => blocksize + 1 - p) hstart
    (fun p q => deleteTurn_ok) (by omega)
  refine ⟨hends, ?_⟩
  constructor
  · intro hsafe p hp hcomes
    have hreads (l : Look) (hl : l ∈ (deleteTurn blocksize m dir p).1) : l.Inside blocksize :=
      hsafe l ((htrace l).mpr ⟨p, deleteComes_comes hcomes, hl⟩)
    unfold deleteTurn at hreads
    rw [if_neg (by omega)] at hreads
    by_cases hcheck : checkDirEntry none m p = false
    · rw [if_pos hcheck] at hreads
      exact absurd (hreads .null (by simp)) id
    · refine ⟨?_, by simpa using hcheck⟩
      rintro rfl
      have hinside := hreads (header (blocksize - 4)) (by rw [if_neg hcheck]; split_ifs <;> simp)
      rw [header_inside_iff] at hinside
      omega
  · intro hin l hl
    obtain ⟨p, hcomes, hl⟩ := (htrace l).mp hl
    obtain ⟨hcomes', hp4⟩ := hcomes.invariant hstart fun p q hs h => (deleteTurn_ok hs h).1
    unfold deleteTurn at hl
    by_cases hend : blocksize ≤ p
    · rw [if_pos hend] at hl
      exact absurd hl not_mem_nil
    · obtain ⟨hne, hcheck⟩ := hin p (by omega) hcomes'
      rw [if_neg hend, if_neg (by rw [hcheck]; decide)] at hl
      have hheader : l = header p := by
        split_ifs at hl <;> exact mem_singleton.mp hl
      rw [hheader, header_inside_iff]
      omega

/-! ## `empty_dir` -/

/-- The free records behind the first two lead to place `p` of the block `m`, `offset` bytes from
the start by their lengths. -/
inductive EmptyComes (bread : ℕ → Option Bytes) (blocksize size start : ℕ) (first : Bytes) :
    ℕ → Bytes → ℕ → Prop
  | start : EmptyComes bread blocksize size start first start first start
  | record {offset p : ℕ} {m : Bytes} (h : EmptyComes bread blocksize size start first offset m p)
      (hsize : offset < size) (hp : p < blocksize)
      (hcheck : checkDirEntry (some blocksize) m p = true) (hfree : inode m p = 0) :
      EmptyComes bread blocksize size start first (offset + recLen m p) m (p + recLen m p)
  | block {offset p : ℕ} {m m' : Bytes}
      (h : EmptyComes bread blocksize size start first offset m p) (hsize : offset < size)
      (hp : blocksize ≤ p) (hm : bread (offset / blocksize) = some m') :
      EmptyComes bread blocksize size start first offset m' 0

def Lost (bread : ℕ → Option Bytes) (blocksize size offset : ℕ) : Prop :=
  bread (offset / blocksize) = none ∧ offset + blocksize < size

def EmptyState.Ok (bread : ℕ → Option Bytes) (blocksize size start : ℕ) (first : Bytes)
    (s : EmptyState) : Prop :=
  match s.bh with
  | some m => EmptyComes bread blocksize size start first s.offset m s.de
  | none => s.offset < size → ∃ offset m p, EmptyComes bread blocksize size start first offset m p ∧
      offset < size ∧ blocksize ≤ p ∧ Lost bread blocksize size offset

def EmptyState.measure (blocksize size : ℕ) (s : EmptyState) : ℕ :=
  match s.bh with
  | some _ =>
    if s.de < blocksize then 2 * (size + 1 - s.offset) - 1 else 2 * (size + 1 - s.offset) + 1
  | none => 0

variable {start : ℕ} {first : Bytes}

theorem emptyTurn_ok (hbs : 0 < blocksize) {s s' : EmptyState}
    (hs : s.Ok bread blocksize size start first)
    (h : (emptyTurn bread blocksize size s).2 = .inl s') :
    s'.Ok bread blocksize size start first ∧
      s'.measure blocksize size < s.measure blocksize size := by
  obtain ⟨offset, bh, de⟩ := s
  unfold emptyTurn at h
  by_cases hsize : size ≤ offset
  · rw [if_pos hsize] at h
    simp at h
  rw [if_neg hsize] at h
  cases bh with
  | none => simp at h
  | some m =>
    have hcomes : EmptyComes bread blocksize size start first offset m de := hs
    dsimp only at h
    by_cases hend : blocksize ≤ de
    · rw [if_pos hend] at h
      cases hm : bread (offset / blocksize) with
      | none =>
        rw [hm] at h
        obtain rfl := Sum.inl.inj h
        refine ⟨fun hlt => ⟨offset, m, de, hcomes, by omega, hend, hm, hlt⟩, ?_⟩
        unfold EmptyState.measure
        dsimp only
        rw [if_neg (by omega)]
        omega
      | some m' =>
        rw [hm] at h
        obtain rfl := Sum.inl.inj h
        refine ⟨hcomes.block (by omega) hend hm, ?_⟩
        unfold EmptyState.measure
        dsimp only
        rw [if_pos hbs, if_neg (by omega)]
        omega
    · split_ifs at h with hcheck hused
      obtain rfl := Sum.inl.inj h
      rw [Bool.not_eq_false] at hcheck
      have hmin := (check_spec hcheck).1
      refine ⟨hcomes.record (by omega) (by omega) hcheck (not_not.mp hused), ?_⟩
      unfold EmptyState.measure
      dsimp only
      split_ifs <;> omega

theorem emptyComes_comes (h : EmptyComes bread blocksize size start first offset m p) :
    Comes (emptyTurn bread blocksize size) ⟨start, some first, start⟩ ⟨offset, some m, p⟩ := by
  induction h with
  | start => exact .start
  | record h hsize hp hcheck hfree ih =>
    refine .turn ih ?_
    unfold emptyTurn
    dsimp only
    rw [if_neg (by omega), if_neg (by omega), if_neg (by rw [hcheck]; decide),
      if_neg (not_not.mpr hfree)]
  | block h hsize hp hm ih =>
    refine .turn ih ?_
    unfold emptyTurn
    dsimp only
    rw [if_neg (by omega), if_pos hp, hm]

theorem emptyLoop_safe_iff (hbs : 0 < blocksize) (bread : ℕ → Option Bytes) (size start : ℕ)
    (first : Bytes) {n : ℕ} (hn : 2 * (size + 2) ≤ n) :
    (∃ r, (run (emptyTurn bread blocksize size) n ⟨start, some first, start⟩).2 = some r) ∧
      (Safe blocksize (run (emptyTurn bread blocksize size) n ⟨start, some first, start⟩).1 ↔
        ∀ offset m p, EmptyComes bread blocksize size start first offset m p → offset < size →
          (p < blocksize → p + 8 ≤ blocksize) ∧
            (blocksize ≤ p → ¬ Lost bread blocksize size offset)) := by
  have hstart : EmptyState.Ok bread blocksize size start first ⟨start, some first, start⟩ :=
    EmptyComes.start
  obtain ⟨hends, htrace⟩ := run_spec (n := n) (EmptyState.measure blocksize size) hstart
    (fun s s' => emptyTurn_ok hbs) (by
      unfold EmptyState.measure
      dsimp only
      split_ifs <;> omega)
  refine ⟨hends, ?_⟩
  constructor
  · intro hsafe offset m p hcomes hsize
    have hcomes' := emptyComes_comes hcomes
    refine ⟨fun hp => ?_, fun hp hlost => ?_⟩
    · have hlook : header p ∈ (emptyTurn bread blocksize size ⟨offset, some m, p⟩).1 := by
        unfold emptyTurn
        dsimp only
        rw [if_neg (by omega), if_neg (by omega)]
        split_ifs <;> simp
      exact header_inside_iff.mp (hsafe _ ((htrace _).mpr ⟨_, hcomes', hlook⟩))
    · have hnext : Comes (emptyTurn bread blocksize size) ⟨start, some first, start⟩
          ⟨offset + blocksize, none, p⟩ := by
        refine .turn hcomes' ?_
        unfold emptyTurn
        dsimp only
        rw [if_neg (by omega), if_pos hp, hlost.1]
      have hnull : Look.null ∈
          (emptyTurn bread blocksize size ⟨offset + blocksize, none, p⟩).1 := by
        unfold emptyTurn
        dsimp only
        rw [if_neg (by have := hlost.2; omega)]
        simp
      exact hsafe _ ((htrace _).mpr ⟨_, hnext, hnull⟩)
  · intro hin l hl
    obtain ⟨s, hcomes, hl⟩ := (htrace l).mp hl
    have hok := hcomes.invariant hstart fun s s' hs h => (emptyTurn_ok hbs hs h).1
    obtain ⟨offset, bh, de⟩ := s
    unfold emptyTurn at hl
    by_cases hsize : size ≤ offset
    · rw [if_pos hsize] at hl
      exact absurd hl not_mem_nil
    rw [if_neg hsize] at hl
    cases bh with
    | none =>
      obtain ⟨o, m, p, hc, ho, hp, hlost⟩ := hok (not_le.mp hsize)
      exact absurd hlost ((hin o m p hc ho).2 hp)
    | some m =>
      have hc : EmptyComes bread blocksize size start first offset m de := hok
      dsimp only at hl
      by_cases hend : blocksize ≤ de
      · rw [if_pos hend] at hl
        cases hm : bread (offset / blocksize) <;> simp [hm] at hl
      · have hheader : l = header de := by
          split_ifs at hl <;> exact mem_singleton.mp hl
        rw [hheader]
        exact (hin offset m de hc (not_le.mp hsize)).1 (not_le.mp hend)

/-- The second record, which is taken unchecked, and what is read of its name lie in the block. -/
def SecondInside (blocksize ino : ℕ) (m : Bytes) : Prop :=
  inode m 0 = ino → recLen m 0 + 8 ≤ blocksize ∧
    (inode m (recLen m 0) ≠ 0 → (strcmp dot m (nameAt 0)).2 = true →
      nameAt (recLen m 0) + (strcmp dotdot m (nameAt (recLen m 0))).1 ≤ blocksize)

theorem strcmp_dot_le (m : Bytes) (p : ℕ) : (strcmp dot m p).1 ≤ 2 := by
  unfold dot strcmp
  split_ifs
  · exact le_rfl
  · exact Nat.le_succ 1

theorem firstRecords_safe_iff (hbs : 12 ≤ blocksize) (m : Bytes) (ino : ℕ) :
    Safe blocksize (firstRecords m ino).1 ↔ SecondInside blocksize ino m := by
  have hhead : (header 0).Inside blocksize := header_inside_iff.mpr (by omega)
  have hdot : (Look.bytes (nameAt 0) (strcmp dot m (nameAt 0)).1).Inside blocksize := by
    have := strcmp_dot_le m (nameAt 0)
    change 0 + 8 + (strcmp dot m (nameAt 0)).1 ≤ blocksize
    omega
  have hnameinside (p n : ℕ) : (Look.bytes p n).Inside blocksize ↔ p + n ≤ blocksize := Iff.rfl
  unfold Safe SecondInside firstRecords
  by_cases hino : inode m 0 = ino
  · rw [if_neg (not_not.mpr hino)]
    by_cases hzero : inode m (recLen m 0) = 0
    · simp [hhead, hino, hzero, header_inside_iff]
    · rw [if_neg hzero]
      by_cases hfirst : (strcmp dot m (nameAt 0)).2 = false
      · simp [hhead, hdot, hino, hfirst, header_inside_iff]
      · simp [hhead, hdot, hino, hzero, hfirst, header_inside_iff, hnameinside]
  · simp [hhead, hino]

theorem emptyDir_safe_iff (hbs : 12 ≤ blocksize) (bread : ℕ → Option Bytes) (size ino : ℕ) :
    (∃ r, (emptyDir bread blocksize size ino).2 = some r) ∧
      (Safe blocksize (emptyDir bread blocksize size ino).1 ↔
        (dirRecLen 1 + dirRecLen 2 ≤ size → ∀ first, bread 0 = some first →
          SecondInside blocksize ino first ∧ ((firstRecords first ino).2 = true →
            ∀ offset m p, EmptyComes bread blocksize size
                (recLen first 0 + recLen first (recLen first 0)) first offset m p →
              offset < size → (p < blocksize → p + 8 ≤ blocksize) ∧
                (blocksize ≤ p → ¬ Lost bread blocksize size offset)))) := by
  unfold emptyDir
  by_cases hsize : size < dirRecLen 1 + dirRecLen 2
  · rw [if_pos hsize]
    refine ⟨⟨true, rfl⟩, iff_of_true (fun l hl => absurd hl not_mem_nil) fun hle => ?_⟩
    omega
  rw [if_neg hsize]
  cases hread : bread 0 with
  | none =>
    refine ⟨⟨true, rfl⟩, iff_of_true (fun l hl => absurd hl not_mem_nil) fun _ m hm => ?_⟩
    exact absurd hm (by simp)
  | some first =>
    have hfirst := firstRecords_safe_iff hbs first ino
    obtain ⟨hends, hloop⟩ := emptyLoop_safe_iff (n := 2 * (size + blocksize + 2))
      (by omega : 0 < blocksize) bread size
      (recLen first 0 + recLen first (recLen first 0)) first (by omega)
    dsimp only
    by_cases htwo : (firstRecords first ino).2 = false
    · rw [if_pos htwo]
      refine ⟨⟨true, rfl⟩, hfirst.trans ⟨fun hsecond _ m hm => ?_, fun h => ?_⟩⟩
      · obtain rfl := Option.some.inj hm
        exact ⟨hsecond, fun htrue => absurd (htwo.symm.trans htrue) (by decide)⟩
      · exact (h (not_lt.mp hsize) first rfl).1
    · rw [if_neg htwo]
      rw [Bool.not_eq_false] at htwo
      refine ⟨hends, ?_⟩
      have happend (l l' : List Look) :
          Safe blocksize (l ++ l') ↔ Safe blocksize l ∧ Safe blocksize l' := by
        exact forall_mem_append
      rw [happend, hfirst, hloop]
      constructor
      · rintro ⟨hsecond, hrest⟩ _ m hm
        obtain rfl := Option.some.inj hm
        exact ⟨hsecond, fun _ => hrest⟩
      · intro h
        obtain ⟨hsecond, hrest⟩ := h (not_lt.mp hsize) first rfl
        exact ⟨hsecond, hrest htwo⟩

/-- For any contents of the blocks the four scans end, and each reads inside the blocks and through
no null pointer under its own condition. -/
theorem scans_safe_iff (hbs : blocksize ∈ [1024, 2048, 4096]) (bread : ℕ → Option Bytes)
    (size : ℕ) :
    (∀ name, (∃ r, (findEntry bread blocksize size name).2 = some r) ∧
      (Safe blocksize (findEntry bread blocksize size name).1 ↔
        ∀ k, ¬ FindComes bread blocksize size (name.take 255) k (blocksize - 4))) ∧
    (∀ pos, (∃ r, (readdir bread blocksize size pos).2 = some r) ∧
      (Safe blocksize (readdir bread blocksize size pos).1 ↔
        ∀ k p m, ReadComes bread blocksize size pos k p → bread k = some m → p < blocksize →
          k * blocksize + p < size → p + 8 ≤ blocksize)) ∧
    (∀ m dir, (∃ r, (deleteEntry blocksize m dir).2 = some r) ∧
      (Safe blocksize (deleteEntry blocksize m dir).1 ↔
        ∀ p < blocksize, DeleteComes blocksize m dir p →
          p ≠ blocksize - 4 ∧ checkDirEntry none m p = true)) ∧
    ∀ ino, (∃ r, (emptyDir bread blocksize size ino).2 = some r) ∧
      (Safe blocksize (emptyDir bread blocksize size ino).1 ↔
        (dirRecLen 1 + dirRecLen 2 ≤ size → ∀ first, bread 0 = some first →
          SecondInside blocksize ino first ∧ ((firstRecords first ino).2 = true →
            ∀ offset m p, EmptyComes bread blocksize size
                (recLen first 0 + recLen first (recLen first 0)) first offset m p →
              offset < size → (p < blocksize → p + 8 ≤ blocksize) ∧
                (blocksize ≤ p → ¬ Lost bread blocksize size offset)))) := by
  have hlarge : 12 ≤ blocksize ∧ blocksize % 4 = 0 := by
    simp only [mem_cons, not_mem_nil, or_false] at hbs
    omega
  obtain ⟨hle, hmod⟩ := hlarge
  exact ⟨findEntry_safe_iff hle hmod bread size, readdir_safe_iff (by omega) bread size,
    deleteEntry_safe_iff hle hmod, emptyDir_safe_iff hle bread size⟩

def zeros : Bytes := fun _ => 0

theorem scans_safe_iff_zeros :
    1024 ∈ [1024, 2048, 4096] ∧ (∃ r, (findEntry (fun _ => some zeros) 1024 1024 dot).2 = some r) :=
  ⟨by decide, ((scans_safe_iff (by decide) (fun _ => some zeros) 1024).1 dot).1⟩

def nearEnd : Bytes := fun p => if p = 4 then 0xfc else if p = 5 then 3 else 0

def farRecord : Bytes := fun p =>
  if p = 0 then 2 else if p = 4 then 0xfc else if p = 5 then 0xff else 0

/-- A header is read over the end of the block by `ext2_find_entry`, `ext2_readdir` and `empty_dir`,
and `ext2_delete_entry` takes the super block of no directory. -/
theorem scans_read_outside :
    ¬ Safe 1024 (findEntry (fun _ => some nearEnd) 1024 1024 dot).1 ∧
      ¬ Safe 1024 (readdir (fun _ => some nearEnd) 1024 1024 0).1 ∧
      ¬ Safe 1024 (deleteEntry 1024 zeros 12).1 ∧
      ¬ Safe 1024 (emptyDir (fun _ => some farRecord) 1024 1024 2).1 := by
  refine ⟨fun h => ?_, fun h => ?_, fun h => ?_, fun h => ?_⟩
  · have hinside := h (header 1020) (by decide +kernel)
    exact absurd (header_inside_iff.mp hinside) (by decide)
  · have hinside := h (header 1020) (by decide +kernel)
    exact absurd (header_inside_iff.mp hinside) (by decide)
  · exact h .null (by decide +kernel)
  · have hinside := h (header 65532) (by decide +kernel)
    exact absurd (header_inside_iff.mp hinside) (by decide)

end LinuxKernel.Ext2Scan
