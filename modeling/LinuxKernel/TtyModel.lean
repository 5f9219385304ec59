import Mathlib.Data.Fintype.Card

/-!
# Canonical input of a tty

`put_tty_queue`, `eraser`, `copy_to_cooked` and `read_chan` of `drivers/char/tty_io.c` and
`flush_input` of `tty_ioctl.c`, for a tty that stays in `ICANON` mode.

`copy_to_cooked` runs in a bottom half, so it comes in between any two sections of `read_chan`
that are not under `cli`; a process in `read_chan` may also sleep in `put_fs_byte`.  The kernel
does not take the processor from it between the end of such a section and the update of
`canon_data` that follows.  The echo, which goes to `write_q`, and the throttling are left out.
-/

namespace LinuxKernel.TtyInput
open Function

abbrev Index := Fin 1024

abbrev Byte := BitVec 8

def DISABLED_CHAR : ℤ := 0
def TTY_BREAK : ℕ := 1
def TTY_OVERRUN : ℕ := 4

/-- The flags and characters of a `struct termios` that matter here. -/
structure Termios where
  ignbrk : Bool
  brkint : Bool
  ignpar : Bool
  parmrk : Bool
  istrip : Bool
  inlcr : Bool
  igncr : Bool
  icrnl : Bool
  iuclc : Bool
  ixon : Bool
  ixany : Bool
  isig : Bool
  iexten : Bool
  echo : Bool
  echok : Bool
  echoke : Bool
  noflsh : Bool
  intr : Byte
  quit : Byte
  erase : Byte
  kill : Byte
  eof : Byte
  start : Byte
  stop : Byte
  susp : Byte
  eol : Byte
  reprint : Byte
  werase : Byte
  lnext : Byte
  eol2 : Byte

/-- `reading` has the room that is left to each process in the loop of `read_chan`.  `counting`
is on while a process has taken a delimiter and not yet counted it. -/
structure TtyStruct where
  buf : Index → Byte
  head : Index
  tail : Index
  secondaryFlags : Index → Bool
  canonData : ℤ
  canonHead : Index
  lnext : Bool
  charError : ℕ
  stopped : Bool
  reading : ℕ → Option ℕ
  counting : Bool

def Is (c : ℤ) (cc : Byte) : Prop := c = cc.toNat

instance (c : ℤ) (cc : Byte) : Decidable (Is c cc) := inferInstanceAs (Decidable (c = cc.toNat))

def TtyStruct.left (s : TtyStruct) : ℕ := (s.tail - s.head - 1).val

def TtyStruct.put (s : TtyStruct) (c : Byte) : TtyStruct :=
  if s.head + 1 = s.tail then s
  else { s with buf := update s.buf s.head c, head := s.head + 1 }

def TtyStruct.flushInput (s : TtyStruct) : TtyStruct :=
  { s with head := 0, tail := 0, canonHead := 0, canonData := 0, secondaryFlags := fun _ => false }

inductive KillType where
  | erase
  | werase
  | kill
  deriving DecidableEq

def isalnum (c : Byte) : Bool := (48 ≤ c && c ≤ 57) || (65 ≤ c && c ≤ 90) || (97 ≤ c && c ≤ 122)

/-- The loop of `eraser`: the head that is left.  The first argument bounds the number of
rounds, which are at most as many as the queue has characters. -/
def eraseLoop (killType : KillType) (canonHead : Index) (buf : Index → Byte) : ℕ → ℕ → Index → Index
  | 0, _, head => head
  | n + 1, seenAlnums, head =>
    if head = canonHead then head
    else
      let c := buf (head - 1)
      let alnum : Bool := isalnum c || c = 95
      if killType = .werase ∧ alnum = false ∧ seenAlnums ≠ 0 then head
      else if killType = .erase then head - 1
      else
        eraseLoop killType canonHead buf n
          (if killType = .werase ∧ alnum = true then seenAlnums + 1 else seenAlnums) (head - 1)

def TtyStruct.eraser (s : TtyStruct) (t : Termios) (c : ℤ) : TtyStruct :=
  if s.head = s.canonHead then s
  else if Is c t.erase then
    { s with head := eraseLoop .erase s.canonHead s.buf 1024 0 s.head }
  else if Is c t.werase then
    { s with head := eraseLoop .werase s.canonHead s.buf 1024 0 s.head }
  else if t.echo = false then { s with head := s.canonHead }
  else if t.echok = false ∨ t.echoke = false then { s with head := s.canonHead }
  else { s with head := eraseLoop .kill s.canonHead s.buf 1024 0 s.head }

/-! ## `copy_to_cooked` -/

def TtyStruct.errorChar (s : TtyStruct) (t : Termios) (c : Byte) : TtyStruct :=
  let error := s.charError
  let s := { s with charError := 0 }
  if error = TTY_BREAK then
    if t.ignbrk then s
    else if t.brkint then s
    else if t.parmrk then ((s.put 255).put 0).put 0
    else s.put 0
  else if error = TTY_OVERRUN then s
  else if t.ignpar then s
  else if t.parmrk then ((s.put 255).put 0).put c
  else s.put 0

/-- `tolower`: `_ctmp` is a signed character, so from 128 on the table is read before its
start, where `before` says whether there is the bit for upper case. -/
def tolower (before : ℤ → Bool) (c : ℤ) : ℤ :=
  let ctmp := if c < 128 then c else c - 256
  let upper : Bool := if 0 ≤ ctmp then 65 ≤ ctmp && ctmp ≤ 90 else ctmp ≠ -1 && before ctmp
  if upper then ctmp + 32 else ctmp

def Termios.mapInput (t : Termios) (before : ℤ → Bool) (lnext : Bool) (c : Byte) : Option ℤ :=
  let c : ℤ := if t.istrip then c.toNat % 128 else c.toNat
  let mapped : Option ℤ :=
    if lnext then some c
    else if c = 13 then if t.igncr then none else some (if t.icrnl then 10 else c)
    else some (if c = 10 ∧ t.inlcr then 13 else c)
  mapped.map fun c => if t.iuclc && t.iexten then tolower before c else c

def TtyStruct.isig (s : TtyStruct) (t : Termios) : TtyStruct := if t.noflsh then s else s.flushInput

/-- The characters with a meaning of their own, up to those that send a signal; none if the
character is to be stored. -/
def TtyStruct.special (s : TtyStruct) (t : Termios) (orphaned : Bool) (c : ℤ) : Option TtyStruct :=
  if s.lnext then none
  else if Is c t.erase ∨ Is c t.kill ∨ (Is c t.werase ∧ t.iexten) then some (s.eraser t c)
  else if Is c t.lnext ∧ t.iexten then some { s with lnext := true }
  else if Is c t.reprint ∧ t.echo ∧ t.iexten then some s
  else if t.ixon ∧ ((s.stopped ∧ t.ixany ∧ t.iexten) ∨ Is c t.start) then
    some { s with stopped := false }
  else if t.ixon ∧ Is c t.stop then some { s with stopped := true }
  else if t.isig ∧ Is c t.intr then some (s.isig t)
  else if t.isig ∧ Is c t.quit then some (s.isig t)
  else if t.isig ∧ Is c t.susp then some (if orphaned then s else s.isig t)
  else none

/-- A `\377` that is stored twice, to tell it from the mark of an error. -/
def TtyStruct.Doubled (s : TtyStruct) (t : Termios) (c : ℤ) : Prop :=
  t.parmrk ∧ c = 255 ∧ (¬Is c t.eof ∨ s.lnext)

instance (s : TtyStruct) (t : Termios) (c : ℤ) : Decidable (s.Doubled t c) :=
  inferInstanceAs (Decidable (t.parmrk ∧ c = 255 ∧ (¬Is c t.eof ∨ s.lnext)))

def TtyStruct.Delimits (s : TtyStruct) (t : Termios) (c : ℤ) : Prop :=
  s.lnext = false ∧ (c = 10 ∨ Is c t.eof ∨ Is c t.eol ∨ (Is c t.eol2 ∧ t.iexten))

instance (s : TtyStruct) (t : Termios) (c : ℤ) : Decidable (s.Delimits t c) :=
  inferInstanceAs (Decidable (s.lnext = false ∧
    (c = 10 ∨ Is c t.eof ∨ Is c t.eol ∨ (Is c t.eol2 ∧ t.iexten))))

def TtyStruct.delimit (s : TtyStruct) (c : Byte) : TtyStruct :=
  let s := { s with secondaryFlags := update s.secondaryFlags s.head true }
  let s := s.put c
  { s with canonHead := s.head, canonData := s.canonData + 1 }

def TtyStruct.store (s : TtyStruct) (t : Termios) (c : ℤ) : TtyStruct :=
  let s1 := if s.Doubled t c then s.put (BitVec.ofInt 8 c) else s
  let s2 :=
    if s.Delimits t c then
      s1.delimit (BitVec.ofInt 8 (if Is c t.eof then DISABLED_CHAR else c))
    else s1.put (BitVec.ofInt 8 c)
  { s2 with lnext := false }

/-- What a round does with a character without a mark: the rest, or the state and the character
to be stored. -/
def TtyStruct.examine (s : TtyStruct) (before : ℤ → Bool) (t : Termios) (orphaned : Bool)
    (c : Byte) : TtyStruct × Option ℤ :=
  match t.mapInput before s.lnext c with
  | none => (s, none)
  | some c =>
    let s := if c = DISABLED_CHAR then { s with lnext := true } else s
    match s.special t orphaned c with
    | some s => (s, none)
    | none => (s, some c)

/-- A round of the loop of `copy_to_cooked`, for one character of the read queue and its mark.
The termios may have changed since the last one. -/
def TtyStruct.copyToCooked (s : TtyStruct) (before : ℤ → Bool) (t : Termios) (orphaned : Bool)
    (c : Byte) (specialFlag : Bool) : TtyStruct :=
  if s.left = 0 then s
  else if specialFlag then { s with charError := c.toNat % 8 }
  else if s.charError ≠ 0 then s.errorChar t c
  else
    match s.examine before t orphaned c with
    | (s, none) => s
    | (s, some c) => s.store t c

def TtyStruct.readChan (s : TtyStruct) (p nr : ℕ) : TtyStruct :=
  if s.canonData ≠ 0 then { s with reading := update s.reading p (some nr) } else s

def TtyStruct.leave (s : TtyStruct) (p : ℕ) : TtyStruct :=
  { s with reading := update s.reading p none }

def TtyStruct.take (s : TtyStruct) (p : ℕ) : TtyStruct :=
  match s.reading p with
  | none => s
  | some nr =>
    if s.head = s.tail then s.leave p
    else
      let eol := s.secondaryFlags s.tail
      let c := s.buf s.tail
      let s := { s with secondaryFlags := update s.secondaryFlags s.tail false }
      if nr = 0 then
        if eol then
          if c = 0 then { s with canonData := s.canonData - 1, tail := s.tail + 1 }.leave p
          else
            { s with secondaryFlags := update s.secondaryFlags s.tail true }.leave p
        else s.leave p
      else
        let s := { s with tail := s.tail + 1 }
        if eol then { s with counting := true }.leave p
        else { s with reading := update s.reading p (some (nr - 1)) }

def TtyStruct.count (s : TtyStruct) : TtyStruct :=
  let canonData := s.canonData - 1
  { s with canonData := if canonData < 0 then 0 else canonData, counting := false }

inductive Event where
  | received (t : Termios) (orphaned : Bool) (c : Byte) (specialFlag : Bool)
  | flush
  | readChan (p nr : ℕ)
  | take (p : ℕ)
  | count

section

variable (before : ℤ → Bool)

def step (s : TtyStruct) : Event → TtyStruct
  | .received t orphaned c specialFlag => s.copyToCooked before t orphaned c specialFlag
  | .flush => s.flushInput
  | .readChan p nr => if s.counting = false ∧ s.reading p = none then s.readChan p nr else s
  | .take p => if s.counting = false then s.take p else s
  | .count => if s.counting then s.count else s

def run (s : TtyStruct) (es : List Event) : TtyStruct := es.foldl (step before) s

end

def opened : TtyStruct where
  buf := fun _ => 0
  head := 0
  tail := 0
  secondaryFlags := fun _ => false
  canonData := 0
  canonHead := 0
  lnext := false
  charError := 0
  stopped := false
  reading := fun _ => none
  counting := false

end LinuxKernel.TtyInput
