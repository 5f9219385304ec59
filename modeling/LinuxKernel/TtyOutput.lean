import LinuxKernel.TtyCanon
import Mathlib.Tactic

/-!
# The output of a tty

`opost` and `write_chan` of `drivers/char/tty_io.c`, for one string that a process writes to a
tty in one call or in several.  The driver takes characters from `write_q` at any time.
-/

namespace LinuxKernel.TtyOutput
open Function List TtyInput

local instance index_neZero : NeZero 1024 := ⟨by decide⟩

/-- The flags of `c_oflag` that matter here; `xtabs` says that `TABDLY` is `XTABS`. -/
structure OFlags where
  opost : Bool
  onlret : Bool
  onlcr : Bool
  onocr : Bool
  ocrnl : Bool
  xtabs : Bool
  olcuc : Bool

structure TtyQueue where
  buf : Index → Byte
  head : Index
  tail : Index

structure TtyStruct where
  writeQ : TtyQueue
  column : BitVec 32
  canonColumn : BitVec 32

def TtyQueue.left (q : TtyQueue) : ℕ := (q.tail - q.head - 1).val

def TtyQueue.put (q : TtyQueue) (c : Byte) : TtyQueue :=
  if q.head + 1 = q.tail then q else { q with buf := update q.buf q.head c, head := q.head + 1 }

def TtyStruct.put (tty : TtyStruct) (c : Byte) : TtyStruct :=
  { tty with writeQ := tty.writeQ.put c }

def iscntrl (c : Byte) : Bool := c < 32 || c = 127

/-- `toupper`: `_ctmp` is a signed character, so from 128 on the table is read before its start,
where `before` says whether there is the bit for lower case. -/
def toupper (before : ℤ → Bool) (c : Byte) : Byte :=
  let lower : Bool :=
    if c < 128 then 97 ≤ c && c ≤ 122 else c ≠ 255 && before (c.toNat - 256)
  if lower then c - 32 else c

/-- The loop for a tab that is expanded, which has at most eight rounds. -/
def TtyStruct.tab : ℕ → TtyStruct → TtyStruct
  | 0, tty => tty
  | n + 1, tty =>
    let tty := { tty.put 32 with column := tty.column + 1 }
    if tty.column % 8 = 0 then tty else tab n tty

def opost (before : ℤ → Bool) (o : OFlags) (c : Byte) (tty : TtyStruct) : Bool × TtyStruct :=
  if tty.writeQ.left = 0 then (false, tty)
  else if o.opost = false then (true, tty.put c)
  else if c = 10 then
    let tty := if o.onlret then { tty with column := 0 } else tty
    if o.onlcr then
      if tty.writeQ.left < 2 then (false, tty)
      else (true, { tty.put 13 with column := 0, canonColumn := 0 }.put c)
    else (true, { tty with canonColumn := tty.column }.put c)
  else if c = 13 then
    if o.onocr ∧ tty.column = 0 then (true, tty)
    else if o.ocrnl then
      let tty := if o.onlret then { tty with column := 0, canonColumn := 0 } else tty
      (true, tty.put 10)
    else (true, { tty with column := 0, canonColumn := 0 }.put c)
  else if c = 9 then
    if o.xtabs then if tty.writeQ.left < 8 then (false, tty) else (true, tty.tab 8)
    else (true, { tty with column := (tty.column ||| 7) + 1 }.put c)
  else if c = 8 then
    (true, { tty with column := if 0 < tty.column then tty.column - 1 else tty.column }.put c)
  else
    let c := if o.olcuc then toupper before c else c
    (true, { tty with column := if iscntrl c then tty.column else tty.column + 1 }.put c)

/-- `rest` is what has not been taken of the string, `nr` how much of it the call of `write_chan`
has to take, and `sent` what the driver has taken. -/
structure State where
  tty : TtyStruct
  rest : List Byte
  nr : ℕ
  sent : List Byte

/-- A call of `write_chan` with the next characters, a round of its inner loop, its end before it
has taken them all, and the driver. -/
inductive Event where
  | write (nr : ℕ)
  | put
  | leave
  | drain

def next (before : ℤ → Bool) (o : OFlags) (s : State) : Event → State
  | .write nr => if s.nr = 0 then { s with nr } else s
  | .put =>
    match s.rest, s.nr with
    | c :: rest, nr + 1 =>
      match opost before o c s.tty with
      | (true, tty) => { s with tty, rest, nr }
      | (false, tty) => { s with tty }
    | _, _ => s
  | .leave => { s with nr := 0 }
  | .drain =>
    let q := s.tty.writeQ
    if q.head = q.tail then s
    else
      { s with
        tty := { s.tty with writeQ := { q with tail := q.tail + 1 } }
        sent := s.sent ++ [q.buf q.tail] }

def run (before : ℤ → Bool) (o : OFlags) (s : State) (es : List Event) : State :=
  es.foldl (next before o) s

/-- What a character becomes at a column, and the column behind it. -/
def image (before : ℤ → Bool) (o : OFlags) (column : BitVec 32) (c : Byte) :
    List Byte × BitVec 32 :=
  if o.opost = false then ([c], column)
  else if c = 10 then
    (if o.onlcr then [13, 10] else [10], if o.onlcr ∨ o.onlret then 0 else column)
  else if c = 13 then
    if o.onocr ∧ column = 0 then ([], column)
    else ([if o.ocrnl then 10 else 13], if o.ocrnl ∧ ¬o.onlret then column else 0)
  else if c = 9 then
    if o.xtabs then
      (replicate (8 - column.toNat % 8) 32, column + BitVec.ofNat 32 (8 - column.toNat % 8))
    else ([9], (column ||| 7) + 1)
  else if c = 8 then ([8], if 0 < column then column - 1 else column)
  else
    let c := if o.olcuc then toupper before c else c
    ([c], if iscntrl c then column else column + 1)

def images (before : ℤ → Bool) (o : OFlags) (column : BitVec 32) (str : List Byte) :
    List Byte × BitVec 32 :=
  str.foldl (fun p c => (p.1 ++ (image before o p.2 c).1, (image before o p.2 c).2)) ([], column)

def TtyQueue.content (q : TtyQueue) : List Byte :=
  (List.range (q.head - q.tail).val).map fun i => q.buf (q.tail + Fin.ofNat 1024 i)

variable {before : ℤ → Bool} {o : OFlags} {q : TtyQueue} {tty : TtyStruct}

theorem content_put (c : Byte) (h : q.left ≠ 0) : (q.put c).content = q.content ++ [c] := by
  have hne := ne_of_left h
  unfold TtyQueue.put TtyQueue.content
  rw [if_neg hne]
  dsimp only
  rw [val_succ_sub hne, range_succ, map_append, map_singleton]
  congr 1
  · refine map_congr_left fun i hi => update_of_ne ?_ _ _
    rw [mem_range] at hi
    intro heq
    have hval := congrArg Fin.val heq
    simp only [Fin.val_add, Fin.val_ofNat] at hval
    omega
  · rw [show q.tail + Fin.ofNat 1024 (q.head - q.tail).val = q.head by simp, update_self]

theorem left_put (c : Byte) (h : q.left ≠ 0) : (q.put c).left + 1 = q.left := by
  unfold TtyQueue.put
  rw [if_neg (ne_of_left h)]
  exact left_eq (ne_of_left h)

theorem content_drain (h : q.head ≠ q.tail) :
    q.content = q.buf q.tail :: { q with tail := q.tail + 1 }.content := by
  unfold TtyQueue.content
  dsimp only
  rw [← val_sub_succ h, range_succ_eq_map, map_cons, map_map]
  congr 1
  · simp
  · refine map_congr_left fun i _ => congrArg q.buf ?_
    simp [Fin.ext_iff, Fin.val_add]
    omega

theorem tab_spec (n : ℕ) (tty : TtyStruct) (hn : 8 - tty.column.toNat % 8 ≤ n)
    (hleft : 8 - tty.column.toNat % 8 ≤ tty.writeQ.left) :
    (tty.tab n).writeQ.content =
        tty.writeQ.content ++ replicate (8 - tty.column.toNat % 8) 32 ∧
      (tty.tab n).column = tty.column + BitVec.ofNat 32 (8 - tty.column.toNat % 8) := by
  induction n generalizing tty with
  | zero => omega
  | succ n ih =>
    have hput := content_put (q := tty.writeQ) 32 (by omega)
    have hroom := left_put 32 (q := tty.writeQ) (by omega)
    have hcol : (tty.column + 1).toNat % 8 = (tty.column.toNat + 1) % 8 := by
      rw [BitVec.toNat_add]
      simp
    unfold TtyStruct.tab
    dsimp only
    split_ifs with hlast
    · have hone : 8 - tty.column.toNat % 8 = 1 := by
        have hval : (tty.column + 1).toNat % 8 = 0 := by simpa using congrArg BitVec.toNat hlast
        omega
      rw [hone]
      exact ⟨hput, rfl⟩
    · have hmore : 8 - (tty.column + 1).toNat % 8 + 1 = 8 - tty.column.toNat % 8 := by
        have hval : (tty.column + 1).toNat % 8 ≠ 0 := fun hval =>
          hlast (BitVec.eq_of_toNat_eq (by simpa using hval))
        omega
      obtain ⟨hcontent, hcolumn⟩ := ih { tty.put 32 with column := tty.column + 1 }
        (by dsimp only; omega) (by dsimp only [TtyStruct.put]; omega)
      dsimp only at hcontent hcolumn
      rw [hcontent, hcolumn, ← hmore, replicate_succ, BitVec.ofNat_add]
      dsimp only [TtyStruct.put]
      rw [hput, append_assoc, BitVec.add_assoc, BitVec.add_comm 1]
      exact ⟨rfl, rfl⟩

/-- The column is that of the characters taken, or the next is a newline that has been refused
after `ONLRET` has cleared it. -/
def Column (o : OFlags) (column : BitVec 32) (tty : TtyStruct) (c : Option Byte) : Prop :=
  tty.column = column ∨ c = some 10 ∧ o.opost = true ∧ o.onlret = true ∧ tty.column = 0

section
variable {column : BitVec 32} {c : Byte} (before : ℤ → Bool)
  (hcolumn : Column o column tty (some c))
include hcolumn

theorem opost_taken (h : (opost before o c tty).1 = true) :
    (opost before o c tty).2.writeQ.content =
        tty.writeQ.content ++ (image before o column c).1 ∧
      (opost before o c tty).2.column = (image before o column c).2 := by
  unfold opost at h ⊢
  unfold image
  by_cases hfull : tty.writeQ.left = 0
  · rw [if_pos hfull] at h
    cases h
  have hput : ∀ c, (tty.writeQ.put c).content = tty.writeQ.content ++ [c] := fun c =>
    content_put c hfull
  rw [if_neg hfull] at h ⊢
  by_cases hnl : c = 10
  · have htwo : 2 ≤ tty.writeQ.left → ((tty.writeQ.put 13).put 10).content =
        tty.writeQ.content ++ [13, 10] := by
      intro hleft
      have hroom := left_put 13 hfull
      rw [content_put 10 (by omega), hput, append_assoc]
      rfl
    unfold Column at hcolumn
    subst hnl
    grind [TtyStruct.put]
  · obtain rfl : tty.column = column := hcolumn.resolve_right fun hnewline =>
      hnl (Option.some.inj hnewline.1)
    have htab := tab_spec 8 tty (by omega)
    rw [if_neg hnl] at h ⊢
    split_ifs at h ⊢ <;> try exact ⟨hput _, rfl⟩
    · exact ⟨(append_nil _).symm, rfl⟩
    all_goals grind [TtyStruct.put]

theorem opost_refused (h : (opost before o c tty).1 = false) :
    (opost before o c tty).2.writeQ = tty.writeQ ∧
      Column o column (opost before o c tty).2 (some c) ∧ tty.writeQ.left < 8 := by
  unfold opost at h ⊢
  unfold Column at *
  grind

end

theorem images_concat (column : BitVec 32) (str : List Byte) (c : Byte) :
    images before o column (str ++ [c]) =
      ((images before o column str).1 ++ (image before o (images before o column str).2 c).1,
        (image before o (images before o column str).2 c).2) := by
  rw [images, foldl_append]
  rfl

/-- What `write_q` has held is the image of the characters taken. -/
def Inv (before : ℤ → Bool) (o : OFlags) (tty : TtyStruct) (str : List Byte) (s : State) : Prop :=
  ∃ past, str = past ++ s.rest ∧
    s.sent ++ s.tty.writeQ.content =
      tty.writeQ.content ++ (images before o tty.column past).1 ∧
    Column o (images before o tty.column past).2 s.tty s.rest.head?

variable {s : State} {str : List Byte}

theorem Inv.put (h : Inv before o tty str s) : Inv before o tty str (next before o s .put) := by
  obtain ⟨past, hstr, hsent, hcolumn⟩ := h
  dsimp only [next]
  split
  · rename_i c rest nr hrest hnr
    rw [hrest] at hstr hcolumn
    have htaken := opost_taken before hcolumn
    have hrefused := opost_refused before hcolumn
    split
    · rename_i tty' heq
      rw [heq] at htaken
      obtain ⟨hcontent, hcol⟩ := htaken rfl
      refine ⟨past ++ [c], by simp [hstr], ?_, ?_⟩
      · dsimp only
        rw [images_concat, hcontent, ← append_assoc, hsent, append_assoc]
      · exact .inl (by rw [images_concat, hcol])
    · rename_i tty' heq
      rw [heq] at hrefused
      obtain ⟨hq, hcol, -⟩ := hrefused rfl
      refine ⟨past, by rw [hstr, hrest], by rw [hq, hsent], ?_⟩
      rw [hrest]
      exact hcol
  · exact ⟨past, hstr, hsent, hcolumn⟩

theorem Inv.next (h : Inv before o tty str s) (e : Event) :
    Inv before o tty str (next before o s e) := by
  cases e with
  | write nr =>
    dsimp only [TtyOutput.next]
    split
    · exact h
    · exact h
  | put => exact h.put
  | leave => exact h
  | drain =>
    dsimp only [TtyOutput.next]
    split_ifs with hempty
    · exact h
    · obtain ⟨past, hstr, hsent, hcolumn⟩ := h
      refine ⟨past, hstr, ?_, hcolumn⟩
      rw [content_drain hempty] at hsent
      simpa using hsent

/-- However the string is cut into calls and whatever the driver takes between the rounds,
`write_q` gets the images of the characters taken, in order and once each, and behind the whole
string the column is that of its image.  With eight places left a round takes its character. -/
theorem run_output (before : ℤ → Bool) (o : OFlags) (tty : TtyStruct) (str : List Byte)
    (es : List Event) :
    let s := run before o ⟨tty, str, 0, []⟩ es
    (∃ past, str = past ++ s.rest ∧ s.sent ++ s.tty.writeQ.content =
      tty.writeQ.content ++ (images before o tty.column past).1) ∧
    (s.rest = [] → s.sent ++ s.tty.writeQ.content =
        tty.writeQ.content ++ (images before o tty.column str).1 ∧
      s.tty.column = (images before o tty.column str).2) ∧
    (s.nr ≠ 0 → 8 ≤ s.tty.writeQ.left → (next before o s .put).rest = s.rest.tail) := by
  have hrun : ∀ s, Inv before o tty str s → Inv before o tty str (run before o s es) := by
    induction es with
    | nil => exact fun s h => h
    | cons e es ih => exact fun s h => ih _ (h.next e)
  obtain ⟨past, hstr, hsent, hcolumn⟩ :=
    hrun ⟨tty, str, 0, []⟩ ⟨[], rfl, by simp [images], .inl rfl⟩
  refine ⟨⟨past, hstr, hsent⟩, fun hrest => ?_, fun hnr hleft => ?_⟩
  · rw [hrest, append_nil] at hstr
    rw [hrest] at hcolumn
    subst hstr
    exact ⟨hsent, hcolumn.resolve_right (by simp)⟩
  · generalize run before o ⟨tty, str, 0, []⟩ es = s at *
    obtain ⟨nr, hnr⟩ := Nat.exists_eq_succ_of_ne_zero hnr
    cases hrest : s.rest with
    | nil => simp [next, hrest]
    | cons c rest =>
      have hrefused : (opost before o c s.tty).1 = false → _ := opost_refused before (.inl rfl)
      simp only [next, hrest, hnr]
      split <;> grind

end LinuxKernel.TtyOutput
