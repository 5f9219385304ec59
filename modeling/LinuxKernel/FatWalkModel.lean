import LinuxKernel.FatAccessModel
import LinuxKernel.LinkChain

/-!
# The loops that follow the links of the FAT

The loop of `msdos_read_inode` over the clusters of a directory, `raw_scan_nonroot`,
`msdos_add_cluster` up to the new link, and `fat_free`, on the bytes of the FAT.  A call that has
not returned after `fuel` turns is `none`.  What `fs_panic` and `printk` report is kept as a flag;
the sectors of a new cluster and the sizes of a grown file are left out.
-/

namespace LinuxKernel.Fat

open LinkChain

def Layout.access (l : Layout) (d : Disk) (nr : ℕ) (newValue : Option (BitVec 32)) :
    Disk × Link ℕ :=
  let r := l.fatAccess d nr newValue
  (r.1, if r.2 = 0 then .free else if r.2 = -1 then .eof else .link r.2.toNat)

def Layout.read (l : Layout) (d : Disk) (nr : ℕ) : Link ℕ := (l.access d nr none).2

def Layout.endMark (l : Layout) : BitVec 32 := if l.wide then 0xfff8 else 0xff8

structure Volume where
  layout : Layout
  clusterSize : ℕ
  dataStart : ℕ
  prevFree : ℕ
  freeClusters : ℤ

namespace Volume

/-- The loop of `msdos_read_inode`: the size, and whether it reports a bad FAT. -/
def sizeLoop (v : Volume) (d : Disk) : ℕ → ℕ → ℕ → Option (ℕ × Bool)
  | 0, _, _ => none
  | fuel + 1, nr, size =>
    let size := size + sectorSize * v.clusterSize
    match v.layout.read d nr with
    | .free => some (size, true)
    | .eof => some (size, false)
    | .link nr => v.sizeLoop d fuel nr size

def dirSize (v : Volume) (d : Disk) (fuel start : ℕ) : Option (ℕ × Bool) :=
  if start ≠ 0 then v.sizeLoop d fuel start 0 else some (0, false)

/-- The sectors of a cluster; `scanSector` is `raw_scan_sector`, which is negative when it has not
found the entry. -/
def scanCluster (scanSector : ℤ → ℤ) : ℕ → ℤ → Option ℤ
  | 0, _ => none
  | n + 1, sector =>
    if 0 ≤ scanSector sector then some (scanSector sector)
    else scanCluster scanSector n (sector + 1)

def sectorOf (v : Volume) (nr : ℕ) : ℤ := ((nr : ℤ) - 2) * v.clusterSize + v.dataStart

def enoent : ℤ := -2

def rawScanNonroot (v : Volume) (d : Disk) (scanSector : ℤ → ℤ) : ℕ → ℕ → Option (ℤ × Bool)
  | 0, _ => none
  | fuel + 1, start =>
    match scanCluster scanSector v.clusterSize (v.sectorOf start) with
    | some cluster => some (cluster, false)
    | none =>
      match v.layout.read d start with
      | .free => some (enoent, true)
      | .eof => some (enoent, false)
      | .link start => v.rawScanNonroot d scanSector fuel start

def cacheLookup (cluster : ℕ) : List (ℕ × ℕ) → ℕ × ℕ → ℕ × ℕ
  | [], found => found
  | walk :: rest, found =>
    if walk.1 ≤ cluster ∧ found.1 < walk.1 then
      if walk.1 = cluster then walk else cacheLookup cluster rest walk
    else cacheLookup cluster rest found

def intMax : ℕ := 2 ^ 31 - 1

/-- The count with which the search for a free cluster ends, of `n` counts from `count` on. -/
def findFree (v : Volume) (d : Disk) : ℕ → ℕ → ℕ
  | 0, count => count
  | n + 1, count =>
    if v.layout.read d ((count + v.prevFree) % v.layout.clusters + 2) = .free then count
    else v.findFree d n (count + 1)

/-- The search for the last cluster; `none` inside when the file has no end. -/
def tailSearch (v : Volume) (d : Disk) : ℕ → ℕ → Option (Option ℕ)
  | 0, _ => none
  | fuel + 1, current =>
    match v.layout.read d current with
    | .free => some none
    | .eof => some (some current)
    | .link nr => v.tailSearch d fuel nr

structure Added where
  volume : Volume
  disk : Disk
  start : ℕ
  full : Bool
  panic : Bool

def claim (v : Volume) (d : Disk) : Volume × Option ℕ :=
  let limit := v.layout.clusters
  let count := v.findFree d limit 0
  let moved := { v with prevFree := (count + v.prevFree + 1) % limit }
  if limit ≤ count then ({ moved with freeClusters := 0 }, none)
  else
    (if v.freeClusters ≠ -1 then { moved with freeClusters := v.freeClusters - 1 } else moved,
      some ((count + v.prevFree) % limit + 2))

/-- `msdos_add_cluster` for an inode with this start; `cached` has its entries of the FAT cache. -/
def addCluster (v : Volume) (d : Disk) (isRoot : Bool) (start : ℕ) (cached : List (ℕ × ℕ))
    (fuel : ℕ) : Option Added :=
  if isRoot ∨ v.freeClusters = 0 then some ⟨v, d, start, true, false⟩
  else
    match v.claim d with
    | (v, none) => some ⟨v, d, start, true, false⟩
    | (v, some nr) =>
      let d := (v.layout.access d nr (some v.layout.endMark)).1
      if start ≠ 0 then
        match v.tailSearch d fuel (cacheLookup intMax cached (0, start)).2 with
        | none => none
        | some none => some ⟨v, d, start, true, true⟩
        | some (some last) =>
          some ⟨v, (v.layout.access d last (some (BitVec.ofNat 32 nr))).1, start, false, false⟩
      else some ⟨v, d, nr, false, false⟩

inductive Skipped
  | eof
  | bad
  | at (last nr : ℕ)

def skipClusters (v : Volume) (d : Disk) : ℕ → ℕ → ℕ → Skipped
  | 0, last, nr => .at last nr
  | skip + 1, _, nr =>
    match v.layout.read d nr with
    | .free => .bad
    | .eof => .eof
    | .link nr' => v.skipClusters d skip nr nr'

structure Freed where
  volume : Volume
  disk : Disk
  start : ℕ
  blocks : ℤ
  error : Bool
  panic : Bool

def Freed.count (f : Freed) : Freed :=
  { f with
    volume := if f.volume.freeClusters ≠ -1 then
        { f.volume with freeClusters := f.volume.freeClusters + 1 }
      else f.volume
    blocks := f.blocks - f.volume.clusterSize }

def freeLoop : ℕ → Freed → ℕ → Option Freed
  | 0, _, _ => none
  | fuel + 1, f, nr =>
    let r := f.volume.layout.access f.disk nr (some 0)
    let f := { f with disk := r.1 }
    match r.2 with
    | .free => some { f with panic := true }
    | .eof => some f.count
    | .link nr => freeLoop fuel f.count nr

def fatFree (v : Volume) (d : Disk) (start : ℕ) (blocks : ℤ) (skip fuel : ℕ) : Option Freed :=
  if start = 0 then some ⟨v, d, start, blocks, false, false⟩
  else
    match v.skipClusters d skip 0 start with
    | .eof => some ⟨v, d, start, blocks, false, false⟩
    | .bad => some ⟨v, d, start, blocks, true, false⟩
    | .at last nr =>
      if last ≠ 0 then
        freeLoop fuel
          ⟨v, (v.layout.access d last (some v.layout.endMark)).1, start, blocks, false, false⟩ nr
      else freeLoop fuel ⟨v, d, 0, blocks, false, false⟩ nr

end Volume

end LinuxKernel.Fat
