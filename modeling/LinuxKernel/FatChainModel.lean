import LinuxKernel.LinkChain

/-!
# Cluster chains of MS-DOS file systems

`fs/msdos/fat.c`, `misc.c`, `file.c` and `namei.c`, as far as they allocate and free clusters and
remember positions in chains.  The FAT is a table of links, as `fat_access` reads and writes them.
An inode has the number of its directory slot.  `count` is `i_count`, and `entry` what stands in
the slot on the disk; a step is one operation on one inode.

Names are left out: a step names the slot that was found.  So are the entries `.` and `..`, whose
inodes are never used for data, and the chain of `i_depend`: what it holds is given back by a
`close` of its own.
-/

namespace LinuxKernel.FatChain
open Function

open LinkChain

abbrev Ino := ℕ

def rootIno : Ino := 1

def fatCache : ℕ := 8

def sectorSize : ℕ := 512

structure Volume where
  dev : ℕ
  clusters : ℕ
  clusterSize : ℕ
  dev_ne : dev ≠ 0
  clusters_pos : 0 < clusters
  clusterSize_pos : 0 < clusterSize
  clusterSize_lt : clusterSize < 2 ^ 16

structure Inode where
  start : ℕ
  size : BitVec 32
  blocks : ℤ
  nlink : ℕ
  busy : Bool
  isDir : Bool
  count : ℕ
deriving DecidableEq

structure DirEntry where
  used : Bool
  start : ℕ
  size : BitVec 32
  isDir : Bool
deriving DecidableEq

structure CacheEntry where
  device : ℕ
  ino : Ino
  fileCluster : ℕ
  diskCluster : ℕ
deriving DecidableEq

structure State where
  fat : ℕ → Link ℕ
  prevFree : ℕ
  freeClusters : Option ℕ
  inode : Ino → Inode
  entry : Ino → DirEntry
  order : List ℕ
  cache : ℕ → CacheEntry

namespace Volume

variable (v : Volume)

def InRange (nr : ℕ) : Prop := 2 ≤ nr ∧ nr < v.clusters + 2

instance (nr : ℕ) : Decidable (v.InRange nr) := inferInstanceAs (Decidable (_ ∧ _))

def fatAccess (s : State) (nr : ℕ) : Link ℕ := if v.InRange nr then s.fat nr else .free

def fatSet (s : State) (nr : ℕ) (value : Link ℕ) : State :=
  if v.InRange nr then { s with fat := update s.fat nr value } else s

def Hits (s : State) (ino : Ino) (w : ℕ) : Prop :=
  (s.cache w).device = v.dev ∧ (s.cache w).ino = ino

instance (s : State) (ino : Ino) (w : ℕ) : Decidable (v.Hits s ino w) :=
  inferInstanceAs (Decidable (_ ∧ _))

def cacheLookup (s : State) (ino : Ino) (cluster : ℕ) : List ℕ → ℕ × ℕ → ℕ × ℕ
  | [], p => p
  | w :: ws, p =>
    if v.Hits s ino w ∧ (s.cache w).fileCluster ≤ cluster ∧ p.1 < (s.cache w).fileCluster then
      let p := ((s.cache w).fileCluster, (s.cache w).diskCluster)
      if p.1 = cluster then p else cacheLookup s ino cluster ws p
    else cacheLookup s ino cluster ws p

def cacheInvalInode (s : State) (ino : Ino) : State :=
  { s with
    cache := fun w =>
      if w ∈ s.order ∧ v.Hits s ino w then { s.cache w with device := 0 } else s.cache w }

end Volume

def State.cacheAdd (s : State) (v : Volume) (ino : Ino) (fClu dClu : ℕ) : State :=
  match s.order.dropLast.find? fun w => decide
    (v.Hits s ino w ∧ (s.cache w).fileCluster = fClu) with
  | some w =>
    if (s.cache w).diskCluster ≠ dClu then v.cacheInvalInode s ino
    else { s with order := w :: s.order.erase w }
  | none =>
    match s.order.getLast? with
    | some w =>
      { s with
        cache := update s.cache w ⟨v.dev, ino, fClu, dClu⟩
        order := w :: s.order.dropLast }
    | none => s

namespace Volume

variable (v : Volume)

def walk (s : State) : ℕ → ℕ → Option ℕ
  | 0, nr => some nr
  | n + 1, nr =>
    match v.fatAccess s nr with
    | .link nr => walk s n nr
    | _ => none

def getCluster (s : State) (ino : Ino) (cluster : ℕ) : State × ℕ :=
  if (s.inode ino).start = 0 then (s, 0)
  else if cluster = 0 then (s, (s.inode ino).start)
  else
    let p := v.cacheLookup s ino cluster s.order (0, (s.inode ino).start)
    match v.walk s (cluster - p.1) p.2 with
    | some nr => (s.cacheAdd v ino cluster nr, nr)
    | none => (s, 0)

end Volume

def State.setInode (s : State) (ino : Ino) (f : Inode → Inode) : State :=
  { s with inode := update s.inode ino (f (s.inode ino)) }

namespace Volume

variable (v : Volume)

inductive Skip
  | eof
  | bad
  | at (last nr : ℕ)

def skip (s : State) : ℕ → ℕ → ℕ → Skip
  | 0, last, nr => .at last nr
  | n + 1, _, nr =>
    match v.fatAccess s nr with
    | .link nr' => skip s n nr nr'
    | .eof => .eof
    | .free => .bad

def freeOne (s : State) (ino : Ino) (nr : ℕ) : State :=
  { v.fatSet s nr .free with
    freeClusters := s.freeClusters.map (· + 1) }.setInode ino
      fun i => { i with blocks := i.blocks - v.clusterSize }

/-- The second loop of `fat_free`.  Every round makes a link free, so `clusters + 1` rounds are
enough. -/
def freeRest (ino : Ino) : ℕ → State → ℕ → State
  | 0, s, _ => s
  | n + 1, s, nr =>
    match v.fatAccess s nr with
    | .free => s
    | .eof => v.freeOne s ino nr
    | .link nr' => freeRest ino n (v.freeOne s ino nr) nr'

def fatFree (s : State) (ino : Ino) (n : ℕ) : State :=
  if (s.inode ino).start = 0 then s
  else
    match v.skip s n 0 (s.inode ino).start with
    | .at last nr =>
      let s := if last ≠ 0 then v.fatSet s last .eof
        else s.setInode ino fun i => { i with start := 0 }
      v.cacheInvalInode (v.freeRest ino (v.clusters + 1) s nr) ino
    | _ => s

def clusterBytes : BitVec 32 := BitVec.ofNat 32 (sectorSize * v.clusterSize)

/-- The number of clusters for a size, as the loop of `fat_free` counts it down. -/
def clustersFor (size : BitVec 32) : ℕ := ((size + (v.clusterBytes - 1)).sdiv v.clusterBytes).toNat

def msdosTruncate (s : State) (ino : Ino) : State :=
  v.fatFree s ino (v.clustersFor (s.inode ino).size)

/-- The number of rounds of the search for a free cluster, from `count` on. -/
def scan (s : State) : ℕ → ℕ → ℕ
  | 0, count => count
  | n + 1, count =>
    if v.fatAccess s ((count + s.prevFree) % v.clusters + 2) = .free then count
    else scan s n (count + 1)

/-- The last cluster of a chain, from `current` on; none when the chain has no end. -/
def tail (s : State) : ℕ → ℕ → Option ℕ
  | 0, _ => none
  | n + 1, current =>
    match v.fatAccess s current with
    | .eof => some current
    | .link nr => tail s n nr
    | .free => none

def intMax : ℕ := 2 ^ 31 - 1

def grow (i : Inode) : Inode :=
  if i.isDir then
    let size := if i.size &&& BitVec.ofNat 32 (sectorSize - 1) ≠ 0 then
        (i.size + BitVec.ofNat 32 sectorSize) &&& ~~~BitVec.ofNat 32 (sectorSize - 1)
      else i.size
    { i with size := size + v.clusterBytes }
  else i

def take (s : State) (nr : ℕ) : State :=
  { v.fatSet s nr .eof with freeClusters := s.freeClusters.map (· - 1) }

/-- The new cluster is linked to the chain of the inode.  `false` is for a chain without an
end. -/
def append (s : State) (ino : Ino) (nr : ℕ) : State × Bool :=
  let start := (s.inode ino).start
  if start = 0 then
    (s.setInode ino fun i => v.grow { i with start := nr, blocks := i.blocks + v.clusterSize },
      true)
  else
    match v.tail s (v.clusters + 1) (v.cacheLookup s ino intMax s.order (0, start)).2 with
    | some last =>
      ((v.fatSet s last (.link nr)).setInode ino
        fun i => v.grow { i with blocks := i.blocks + v.clusterSize }, true)
    | none => (s, false)

def msdosAddCluster (s : State) (ino : Ino) : State × Bool :=
  if ino = rootIno then (s, false)
  else if s.freeClusters = some 0 then (s, false)
  else
    let count := v.scan s v.clusters 0
    let nr := (count + s.prevFree) % v.clusters + 2
    let s := { s with prevFree := (count + s.prevFree + 1) % v.clusters }
    if v.clusters ≤ count then ({ s with freeClusters := some 0 }, false)
    else v.append (v.take s nr) ino nr

def msdosWriteInode (s : State) (ino : Ino) : State :=
  let i := s.inode ino
  if ino = rootIno ∨ i.nlink = 0 then s
  else
    { s with
      entry := update s.entry ino
        { s.entry ino with
          start := i.start, size := if i.isDir then 0 else i.size, isDir := i.isDir } }

def emptyInode : Inode := ⟨0, 0, 0, 0, false, false, 0⟩

def iput (s : State) (ino : Ino) : State :=
  if 1 < (s.inode ino).count then s.setInode ino fun i => { i with count := i.count - 1 }
  else if (s.inode ino).nlink = 0 then
    (v.msdosTruncate (s.setInode ino fun i => { i with size := 0 }) ino).setInode ino
      fun _ => emptyInode
  else
    let s := if (s.inode ino).busy then v.cacheInvalInode s ino else s
    (msdosWriteInode s ino).setInode ino fun i => { i with count := 0 }

def iget (s : State) (ino : Ino) : State := s.setInode ino fun i => { i with count := i.count + 1 }

def chainLength (s : State) : ℕ → ℕ → ℕ
  | 0, _ => 0
  | n + 1, nr =>
    match v.fatAccess s nr with
    | .link nr => chainLength s n nr + 1
    | _ => 1

/-- `msdos_read_inode`.  For `i_nlink` of a directory, which is the number of its subdirectories
with `.` and `..`, only the smallest one is taken: nothing depends on more than that it is not 0. -/
def msdosReadInode (s : State) (ino : Ino) : State :=
  let e := s.entry ino
  let dir := e.isDir && e.used
  let size := if dir then
      if e.start = 0 then 0
      else BitVec.ofNat 32 (v.chainLength s (v.clusters + 1) e.start) * v.clusterBytes
    else e.size
  s.setInode ino fun i =>
    { i with
      start := e.start
      size := size
      blocks := ((size + (v.clusterBytes - 1)) / v.clusterBytes).toNat * v.clusterSize
      nlink := if dir then 2 else 1
      busy := false
      isDir := dir }

def Available (s : State) (ino : Ino) : Prop :=
  ino ≠ rootIno ∧ (s.entry ino).used = false ∧ (s.inode ino).busy = false

instance (s : State) (ino : Ino) : Decidable (Available s ino) :=
  inferInstanceAs (Decidable (_ ∧ _ ∧ _))

def createIn (s : State) (ino : Ino) (isDir : Bool) : State :=
  if Available s ino then
    v.msdosReadInode (iget { s with entry := update s.entry ino ⟨true, 0, 0, isDir⟩ } ino) ino
  else s

def msdosCreateEntry (s : State) (dir ino : Ino) (isDir full : Bool) : State :=
  if full then
    match v.msdosAddCluster s dir with
    | (s, true) => v.createIn s ino isDir
    | (s, false) => s
  else v.createIn s ino isDir

def doom (s : State) (ino : Ino) : State :=
  { s with
    entry := update s.entry ino { s.entry ino with used := false } }.setInode ino
      fun i => { i with nlink := 0, busy := true }

def msdosUnlink (s : State) (ino : Ino) : State := v.iput (doom (iget s ino) ino) ino

/-- `rename_diff_dir` of the entry `old` to the free slot `new`; `replaced` is the entry that had
the new name. -/
def renameDiffDir (s : State) (old new : Ino) (replaced : Option Ino) : State :=
  let s := iget s old
  let s := match replaced with
    | some r => doom (iget s r) r
    | none => s
  let s := iget { s with entry := update s.entry new (s.entry old) } new
  let s := v.msdosReadInode s new
  let s := v.cacheInvalInode (s.setInode old fun i => { i with busy := true }) old
  let s := { s with entry := update s.entry old { s.entry old with used := false } }
  -- with a replaced inode, the new one is put when that one is
  let s := match replaced with
    | some r => v.iput s r
    | none => v.iput s new
  v.iput s old

end Volume

inductive Event
  | getCluster (ino : Ino) (cluster : ℕ)
  | addCluster (ino : Ino)
  | truncate (ino : Ino) (size : BitVec 32)
  | create (dir ino : Ino) (isDir full : Bool)
  | unlink (ino : Ino)
  | iget (ino : Ino)
  | iput (ino : Ino)
  | sync (ino : Ino)
  | statfs
  | rename (old new : Ino) (replaced : Option Ino)
  | reload (ino : Ino)
  | otherAdd (v : Volume) (ino : Ino) (fClu dClu : ℕ)
  | otherInval (v : Volume) (ino : Ino)

def State.Active (s : State) (ino : Ino) : Prop :=
  (s.entry ino).used = true ∨ 0 < (s.inode ino).count

instance (s : State) (ino : Ino) : Decidable (s.Active ino) := inferInstanceAs (Decidable (_ ∨ _))

def Volume.countFree (v : Volume) (s : State) : ℕ :=
  ((Finset.range v.clusters).filter fun n => s.fat (n + 2) = .free).card

/-- The entry `r` that rename replaces has another slot, and is a file. -/
def State.Replaceable (s : State) (old : Ino) (r : Ino) : Prop :=
  (s.entry r).used = true ∧ r ≠ old ∧ r ≠ rootIno ∧
    ((s.entry r).isDir = true → (s.inode r).count = 0) ∧ (s.entry r).isDir = (s.entry old).isDir

instance (s : State) (old r : Ino) : Decidable (s.Replaceable old r) :=
  inferInstanceAs (Decidable (_ ∧ _ ∧ _ ∧ _ ∧ _))

def Volume.step (v : Volume) (s : State) : Event → State
  | .getCluster ino c => if 0 < (s.inode ino).count then (v.getCluster s ino c).1 else s
  | .addCluster ino => if 0 < (s.inode ino).count then (v.msdosAddCluster s ino).1 else s
  | .truncate ino size =>
    if 0 < (s.inode ino).count ∧ (s.inode ino).isDir = false then
      v.msdosTruncate (s.setInode ino fun i => { i with size := size }) ino
    else s
  | .create dir ino isDir full =>
    if 0 < (s.inode dir).count then v.msdosCreateEntry s dir ino isDir full else s
  | .unlink ino =>
    if (s.entry ino).used = true ∧ (s.entry ino).isDir = false ∧ ino ≠ rootIno then
      v.msdosUnlink s ino
    else s
  | .iget ino => if s.Active ino then Volume.iget s ino else s
  | .iput ino => if 0 < (s.inode ino).count then v.iput s ino else s
  | .sync ino => if 0 < (s.inode ino).count then Volume.msdosWriteInode s ino else s
  | .statfs =>
    match s.freeClusters with
    | some _ => s
    | none => { s with freeClusters := some (v.countFree s) }
  | .rename old new replaced =>
    if (s.entry old).used = true ∧ old ≠ rootIno ∧ Volume.Available s new ∧
        (∀ r ∈ replaced, s.Replaceable old r) then
      v.renameDiffDir s old new replaced
    else s
  | .reload ino =>
    if (s.inode ino).count = 0 ∧ ino ≠ rootIno then v.msdosReadInode s ino else s
  | .otherAdd w ino fClu dClu => if w.dev ≠ v.dev then s.cacheAdd w ino fClu dClu else s
  | .otherInval w ino => if w.dev ≠ v.dev then w.cacheInvalInode s ino else s

def Volume.run (v : Volume) (s : State) (es : List Event) : State := es.foldl v.step s

end LinuxKernel.FatChain
