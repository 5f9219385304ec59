import LinuxKernel.PageRangeModel
import LinuxKernel.ShmMapModel

/-!
# Attaching and detaching in the address space of one process

`sys_shmat` and `sys_shmdt` of `ipc/shm.c` with the page tables of the process that
makes the calls.  A segment that is attached is not destroyed, so that its size goes
with the descriptor.  `exec` puts the stack at the end of the 3 GB of a process.
-/

namespace LinuxKernel.ShmAttach

open Paging

def shmRangeStart : UInt32 := 0x40000000
def shmRangeEnd : UInt32 := 0x60000000
def shmlba : UInt32 := 0x1000
def shmReadOnly : UInt32 := 0x80000000

def eacces : ℤ := 13
def eidrm : ℤ := 43

structure Segment where
  id : ℕ
  shmSegsz : ℕ
  id_lt : id < 128
  shmmin : 1 ≤ shmSegsz
  shmmax : shmSegsz ≤ 0x3fa000

def Segment.shmNpages (seg : Segment) : ℕ := (seg.shmSegsz + pageSize - 1) / pageSize

structure ShmDesc where
  shmSgn : UInt32
  start : UInt32
  stop : UInt32
  seg : Segment

structure Process where
  mm : Mm
  shm : List ShmDesc
  startStack : UInt32
  stack_low : 0xb0000000 ≤ startStack.toNat
  stack_high : startStack.toNat ≤ 0xc0000000

def lowest : List ShmDesc → UInt32 → UInt32
  | [], addr => addr
  | shmd :: l, addr =>
    if shmd.start < shmRangeStart then lowest l addr
    else if shmd.start ≤ addr then lowest l shmd.start
    else lowest l addr

/-- The address that `sys_shmat` takes; `none` if it returns `-EINVAL`. -/
def Process.shmatAddr (p : Process) (seg : Segment) (shmaddr : UInt32) (rnd remap : Bool) :
    Option UInt32 :=
  if shmaddr = 0 then
    if remap then none
    else some ((lowest p.shm shmRangeEnd - UInt32.ofNat seg.shmSegsz) &&& pageMask)
  else if shmaddr &&& (shmlba - 1) ≠ 0 then
    if rnd then some (shmaddr &&& ~~~(shmlba - 1)) else none
  else some shmaddr

def remapMeets (addr : UInt32) (segsz : UInt32) (shmd : ShmDesc) : Bool :=
  (shmd.start ≤ addr && addr < shmd.stop) ||
    (shmd.start ≤ addr + segsz && addr + segsz < shmd.stop)

def shmSgn (id : ℕ) (rdonly : Bool) : UInt32 :=
  (0x82 : UInt32) ||| (UInt32.ofNat id <<< 8) ||| (if rdonly then shmReadOnly else (0 : UInt32))

/-- `sys_shmat`; `permitted`, `current` and `memory` are what `ipcperms`, the sequence
number of the identifier and `kmalloc` say. -/
def Process.shmat (p : Process) (seg : Segment) (shmaddr : UInt32)
    (rdonly rnd remap permitted current memory : Bool) : Option (Process × ℤ) :=
  match p.shmatAddr seg shmaddr rnd remap with
  | none => some (p, -einval)
  | some addr =>
    if p.startStack - 16384 - UInt32.ofNat (pageSize * seg.shmNpages) < addr then
      some (p, -einval)
    else if remap ∧ p.shm.any (remapMeets addr (UInt32.ofNat seg.shmSegsz)) then
      some (p, -einval)
    else if ¬permitted then some (p, -eacces)
    else if ¬current then some (p, -eidrm)
    else if ¬memory then some (p, -enomem)
    else
      let shmd : ShmDesc :=
        { shmSgn := shmSgn seg.id rdonly
          start := addr
          stop := addr + UInt32.ofNat (seg.shmNpages * pageSize)
          seg := seg }
      (p.mm.shmMap shmd.start shmd.stop shmd.shmSgn remap).map fun r =>
        if r.2 ≠ 0 then ({ p with mm := r.1 }, r.2)
        else ({ p with mm := r.1, shm := shmd :: p.shm }, 0)

def Process.shmdt (p : Process) (shmaddr : UInt32) : Option (Process × ℤ) :=
  match p.shm.find? fun shmd => shmd.start = shmaddr with
  | none => some (p, -einval)
  | some shmd =>
    (p.mm.unmapPageRange shmd.start (UInt32.ofNat shmd.seg.shmSegsz)).map fun r =>
      ({ p with mm := r.1, shm := p.shm.eraseP fun shmd => shmd.start = shmaddr }, 0)

/-- What happens to the process.  Between its calls its pages are faulted in and swapped
out and memory is used and freed. -/
inductive Event where
  | shmat (seg : Segment) (shmaddr : UInt32) (rdonly rnd remap permitted current memory : Bool)
  | shmdt (shmaddr : UInt32)
  | pages (mm : Mm)

inductive Process.Step (p : Process) : Event → Process → Prop
  | shmat {seg : Segment} {shmaddr : UInt32} {rdonly rnd remap permitted current memory : Bool}
      {r : Process × ℤ}
      (returns : p.shmat seg shmaddr rdonly rnd remap permitted current memory = some r) :
      Step p (.shmat seg shmaddr rdonly rnd remap permitted current memory) r.1
  | shmdt {shmaddr : UInt32} {r : Process × ℤ} (returns : p.shmdt shmaddr = some r) :
      Step p (.shmdt shmaddr) r.1
  | pages {mm : Mm} (mapped : ∀ page, p.mm.entry page ≠ 0 → mm.entry page ≠ 0) :
      Step p (.pages mm) { p with mm := mm }

end LinuxKernel.ShmAttach
