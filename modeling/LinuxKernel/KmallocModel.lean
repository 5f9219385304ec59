import LinuxKernel.LinkedCells
import Mathlib

/-!
# The small-object allocator: `kmalloc` and `kfree_s`

The allocator of `lib/malloc.c` (without `CONFIG_DEBUG_MALLOC`).  A page of
objects of one size is described by a `bucket_desc`; the descriptors of one
size are chained from `bucket_dir`, the unused ones from `free_bucket_desc`.
Both chains are kept as the list of descriptor addresses their `next` fields
spell.  The free objects of a page are linked through their first words, so
the contents of the object pages are part of the state.

`kmalloc` runs with interrupts off except inside `__get_free_page`, where it
may sleep.  Its stretches between the sleeps are separate functions, and a
call that sleeps is remembered in `pending`.
-/

namespace LinuxKernel.Kmalloc
open Function

def pageSize : ℕ := 4096

def descSize : ℕ := 16

def bucketSizes : List ℕ := [16, 32, 64, 128, 256, 512, 1024, 2048, 4096]

abbrev Bucket := Fin bucketSizes.length

instance : NeZero bucketSizes.length := ⟨by decide⟩

def bucketSize (b : Bucket) : ℕ := bucketSizes.get b

def pageOf (obj : ℕ) : ℕ := obj / pageSize * pageSize

structure BucketDesc where
  page : ℕ
  freeptr : ℕ
  refcnt : ℕ
  bucketSize : ℕ

inductive PageUse where
  | free
  | kmalloc
  | other
  deriving DecidableEq, Repr

/-- A call of `kmalloc` inside `__get_free_page`.  It waits for a page of
descriptors while `bdesc` is `none`, and for a page of objects after that. -/
structure Pending where
  len : ℕ
  bdir : Bucket
  bdesc : Option ℕ

structure Object where
  addr : ℕ
  len : ℕ
  bdir : Bucket
  deriving DecidableEq

structure Malloc where
  chain : Bucket → List ℕ
  freeBucketDesc : List ℕ
  desc : ℕ → BucketDesc
  mem : ℕ → ℕ
  pageUse : ℕ → PageUse
  pending : ℕ → Option Pending
  live : List Object

def Malloc.init (mem : ℕ → ℕ) (pageUse : ℕ → PageUse) : Malloc where
  chain := fun _ => []
  freeBucketDesc := []
  desc := fun _ => ⟨0, 0, 0, 0⟩
  mem := mem
  pageUse := pageUse
  pending := fun _ => none
  live := []

inductive Outcome where
  | sleeps
  | null
  | object (retval : ℕ)
  deriving DecidableEq, Repr

/-- The first loop of `kmalloc`; `none` is the jump to `too_large`. -/
def findBucket (len : ℕ) : Option Bucket :=
  (List.finRange bucketSizes.length).find? fun b => len ≤ bucketSize b

/-- `init_bucket_desc`: the descriptors of a page, in the order in which they
are linked. -/
def initBucketDesc (page : ℕ) : List ℕ :=
  (List.range (pageSize / descSize)).map fun i => page + i * descSize

def expand (size : ℕ) : ℕ → ℕ → (ℕ → ℕ) → ℕ → ℕ
  | 0, _, mem => mem
  | i + 1, page, mem =>
    expand size i (page + size)
      (update mem page (if i + 1 = 1 then 0 else page + size))

def Malloc.setDesc (st : Malloc) (bdesc : ℕ) (d : BucketDesc) : Malloc :=
  { st with desc := update st.desc bdesc d }

def Malloc.setPending (st : Malloc) (call : ℕ) (p : Option Pending) : Malloc :=
  { st with pending := update st.pending call p }

def Malloc.setPage (st : Malloc) (page : ℕ) (use : PageUse) : Malloc :=
  { st with pageUse := update st.pageUse page use }

def Malloc.foundBdesc (st : Malloc) (len : ℕ) (bdir : Bucket)
    (bdesc : ℕ) : Malloc × Outcome :=
  let d := st.desc bdesc
  let retval := d.freeptr
  let d' := { d with
    freeptr := st.mem retval, refcnt := (d.refcnt + 1) % 2 ^ 16 }
  ({ st.setDesc bdesc d' with live := ⟨retval, len, bdir⟩ :: st.live }, .object retval)

def Malloc.kmalloc (st : Malloc) (call len : ℕ) : Malloc × Outcome :=
  match findBucket len with
  | none => (st, .null)
  | some bdir =>
    match (st.chain bdir).find? fun d => (st.desc d).freeptr ≠ 0 with
    | some bdesc => st.foundBdesc len bdir bdesc
    | none =>
      match st.freeBucketDesc with
      | [] => (st.setPending call (some ⟨len, bdir, none⟩), .sleeps)
      | bdesc :: rest =>
        ({ st.setPending call (some ⟨len, bdir, some bdesc⟩) with
          freeBucketDesc := rest }, .sleeps)

/-- The page of descriptors has come: `init_bucket_desc` links its
descriptors in, and the first of them is taken. -/
def Malloc.gotDescPage (st : Malloc) (call len : ℕ) (bdir : Bucket)
    (page : ℕ) : Malloc × Outcome :=
  let st := st.setPage page .kmalloc
  match initBucketDesc page ++ st.freeBucketDesc with
  | [] => (st, .null)
  | bdesc :: rest =>
    ({ st.setPending call (some ⟨len, bdir, some bdesc⟩) with
      freeBucketDesc := rest }, .sleeps)

def Malloc.gotObjectPage (st : Malloc) (call len : ℕ) (bdir : Bucket)
    (bdesc page : ℕ) : Malloc × Outcome :=
  let st := (st.setPage page .kmalloc).setPending call none
  let st := st.setDesc bdesc ⟨page, page, 0, bucketSize bdir⟩
  let count := pageSize / bucketSize bdir
  let st := { st with mem := expand (bucketSize bdir) count page st.mem }
  let st := { st with
    chain := update st.chain bdir (bdesc :: st.chain bdir) }
  st.foundBdesc len bdir bdesc

def Malloc.gotPage (st : Malloc) (call : ℕ) (page : Option ℕ) : Malloc × Outcome :=
  match st.pending call with
  | none => (st, .null)
  | some ⟨len, bdir, none⟩ =>
    match page with
    | none => (st.setPending call none, .null)
    | some page => st.gotDescPage call len bdir page
  | some ⟨len, bdir, some bdesc⟩ =>
    match page with
    | none =>
      ({ st.setPending call none with
        freeBucketDesc := bdesc :: st.freeBucketDesc }, .null)
    | some page => st.gotObjectPage call len bdir bdesc page

/-- The search of `kfree_s` through the buckets that can hold `size`. -/
def Malloc.findDesc (st : Malloc) (page : ℕ) (size : ℕ) : Option (Bucket × ℕ) :=
  (List.finRange bucketSizes.length).findSome? fun bdir =>
    if size ≤ bucketSize bdir then
      ((st.chain bdir).find? fun d => (st.desc d).page = page).map (bdir, ·)
    else none

/-- The label `found` of `kfree_s`.  Interrupts are off since the search, so
`prev` is the predecessor of `bdesc` on the chain. -/
def Malloc.found (st : Malloc) (obj : ℕ) (bdir : Bucket)
    (bdesc : ℕ) : Malloc :=
  let d := st.desc bdesc
  let d' := { d with freeptr := obj, refcnt := (d.refcnt + 65535) % 2 ^ 16 }
  let st := { st.setDesc bdesc d' with
    mem := update st.mem obj d.freeptr }
  if d'.refcnt = 0 then
    let st := { st with
      chain := update st.chain bdir ((st.chain bdir).erase bdesc)
      freeBucketDesc := bdesc :: st.freeBucketDesc }
    st.setPage d'.page .free
  else st

def Malloc.kfreeS (st : Malloc) (obj : ℕ) (size : ℕ) : Option Malloc :=
  if obj = 0 then some st
  else
    match st.findDesc (pageOf obj) size with
    | none => none
    | some (bdir, bdesc) => some (st.found obj bdir bdesc)

def Malloc.FreePage (st : Malloc) (page : ℕ) : Prop :=
  page % pageSize = 0 ∧ page ≠ 0 ∧ st.pageUse page = .free

instance (st : Malloc) (page : ℕ) : Decidable (st.FreePage page) :=
  inferInstanceAs (Decidable (_ ∧ _ ∧ _))

def Object.Contains (o : Object) (a : ℕ) : Prop := o.addr ≤ a ∧ a < o.addr + bucketSize o.bdir

instance (o : Object) (a : ℕ) : Decidable (o.Contains a) := inferInstanceAs (Decidable (_ ∧ _))

/-- One stretch of kernel code between two points at which others can run. -/
inductive Malloc.Step : Malloc → Malloc → Prop
  | kmalloc {st : Malloc} (call len : ℕ) (hidle : st.pending call = none) :
      Step st (st.kmalloc call len).1
  | gotPage {st : Malloc} (call : ℕ) (page : Option ℕ)
      (hwaits : st.pending call ≠ none)
      (hpage : ∀ p, page = some p → st.FreePage p) :
      Step st (st.gotPage call page).1
  | kfreeS {st st' : Malloc} (o : Object) (ho : o ∈ st.live) (size : ℕ)
      (hsize : size ≤ bucketSize o.bdir)
      (hfree : st.kfreeS o.addr size = some st') :
      Step st { st' with live := st.live.erase o }
  | write {st : Malloc} (o : Object) (ho : o ∈ st.live) (data : ℕ → ℕ) :
      Step st { st with
        mem := fun a => if o.Contains a then data a else st.mem a }
  | otherGets {st : Malloc} (page : ℕ) (hpage : st.FreePage page) : Step st (st.setPage page .other)
  | otherFrees {st : Malloc} (page : ℕ)
      (hpage : st.pageUse page = .other) : Step st (st.setPage page .free)

inductive Malloc.Reachable : Malloc → Prop
  | init (mem : ℕ → ℕ) (pageUse : ℕ → PageUse)
      (huse : ∀ page, pageUse page ≠ .kmalloc) :
      Reachable (Malloc.init mem pageUse)
  | step {st st' : Malloc} (hreach : Reachable st) (hstep : st.Step st') : Reachable st'

end LinuxKernel.Kmalloc
