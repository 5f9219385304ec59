import LinuxKernel.LinkedCells
import Mathlib.Tactic

/-!
# The physical page allocator

`mem_init` of `mm/memory.c`, `free_page` and `__get_free_page` of `mm/swap.c`.
A page is free when its `mem_map` count is zero; the free pages are linked
through their first words into `free_page_list` and `secondary_page_list`.

`__get_free_page` touches the lists with interrupts off.  Between two attempts
it calls `try_to_free_page`, which may sleep, so a call that is there is kept in
`reclaiming` and everything else may happen before it returns.
-/

namespace LinuxKernel.PageAlloc
open Function List

def pageSize : ℕ := 4096

def mapPageReserved : ℕ := 2 ^ 15

def maxSecondaryPages : ℕ := 20

def mapNr (addr : ℕ) : ℕ := addr / pageSize

def pageMask (addr : ℕ) : ℕ := addr / pageSize * pageSize

def pageAlign (addr : ℕ) : ℕ := (addr + (pageSize - 1)) / pageSize * pageSize

inductive Priority where
  | buffer
  | atomic
  | user
  | kernel
  deriving DecidableEq, Repr

structure Queue where
  head : ℕ
  nr : ℤ

structure Mm where
  highMemory : ℕ
  memMap : ℕ → ℕ
  word : ℕ → ℕ
  free : Queue
  secondary : Queue
  /-- The processes whose `__get_free_page` is inside `try_to_free_page`. -/
  reclaiming : List ℕ

/-! ## The code -/

def addMemQueue (mm : Mm) (addr : ℕ) (q : Queue) : Mm × Queue :=
  ({ mm with word := update mm.word (pageMask addr) q.head },
    { head := pageMask addr, nr := q.nr + 1 })

def Mm.freePage (mm : Mm) (addr : ℕ) : Mm :=
  if addr < mm.highMemory then
    let count := mm.memMap (mapNr addr)
    if count ≠ 0 then
      if count &&& mapPageReserved = 0 then
        let mm1 := { mm with memMap := update mm.memMap (mapNr addr) (count - 1) }
        if count - 1 = 0 then
          if mm.secondary.nr < maxSecondaryPages then
            let (mm2, q) := addMemQueue mm1 addr mm.secondary
            { mm2 with secondary := q }
          else
            let (mm2, q) := addMemQueue mm1 addr mm.free
            { mm2 with free := q }
        else mm1
      else mm
    else mm
  else mm

/-- `REMOVE_FROM_MEM_QUEUE`: the page it returns, the count array and the list
after it. -/
def removeFromMemQueue (mm : Mm) (q : Queue) : Option ℕ × (ℕ → ℕ) × Queue :=
  let result := q.head
  if result ≠ 0 then
    if result % pageSize = 0 ∧ result < mm.highMemory then
      if mm.memMap (mapNr result) = 0 then
        (some result, update mm.memMap (mapNr result) 1, { head := mm.word result, nr := q.nr - 1 })
      else (none, mm.memMap, { head := 0, nr := 0 })
    else (none, mm.memMap, { head := 0, nr := 0 })
  else (none, mm.memMap, { q with nr := 0 })

def Mm.removeFree (mm : Mm) : Mm × Option ℕ :=
  let (result, memMap, q) := removeFromMemQueue mm mm.free
  ({ mm with memMap := memMap, free := q }, result)

def Mm.removeSecondary (mm : Mm) : Mm × Option ℕ :=
  let (result, memMap, q) := removeFromMemQueue mm mm.secondary
  ({ mm with memMap := memMap, secondary := q }, result)

/-- What a step of `__get_free_page` ends with: the page it returns, where 0 is
no page, or a sleep. -/
inductive Outcome where
  | returned (page : ℕ)
  | asleep
  | none
  deriving DecidableEq, Repr

def Mm.fromSecondary (mm : Mm) : Mm × Outcome :=
  let (mm', result) := mm.removeSecondary
  (mm', .returned (result.getD 0))

/-- `__get_free_page` from `repeat` to its return or to `try_to_free_page`. -/
def Mm.attempt (mm : Mm) (pid : ℕ) (priority : Priority) : Mm × Outcome :=
  let (mm', result) := mm.removeFree
  match result with
  | some page => (mm', .returned page)
  | none =>
    if priority = .buffer then (mm', .returned 0)
    else if priority ≠ .atomic then
      ({ mm' with reclaiming := pid :: mm'.reclaiming }, .asleep)
    else mm'.fromSecondary

def Mm.getFreePage (mm : Mm) (pid : ℕ) (priority : Priority) (interrupt : Bool) : Mm × Outcome :=
  let priority' := if interrupt ∧ priority ≠ .atomic then .atomic else priority
  mm.attempt pid priority'

def Mm.reclaimed (mm : Mm) (pid : ℕ) (freed : Bool) : Mm × Outcome :=
  if pid ∈ mm.reclaiming then
    let mm' := { mm with reclaiming := mm.reclaiming.erase pid }
    if freed then mm'.attempt pid .kernel else mm'.fromSecondary
  else (mm, .none)

def initQueue (memMap : ℕ → ℕ) : ℕ → (ℕ → ℕ) × Queue
  | 0 => (fun _ => 0, { head := 0, nr := 0 })
  | n + 1 =>
    let (word, q) := initQueue memMap n
    if memMap n ≠ 0 then (word, q)
    else (update word (n * pageSize) q.head, { head := n * pageSize, nr := q.nr + 1 })

def initMap (startLowMem startMem endMem nr : ℕ) : ℕ :=
  if (pageAlign startLowMem ≤ nr * pageSize ∧ nr * pageSize < 0xA0000) ∨
      (pageAlign startMem ≤ nr * pageSize ∧ nr * pageSize < endMem) then 0
  else mapPageReserved

def memInit (startLowMem startMem endMem : ℕ) : Mm :=
  let endMem' := pageMask endMem
  let memMap := initMap startLowMem startMem endMem'
  let (word, q) := initQueue memMap (mapNr endMem')
  { highMemory := endMem'
    memMap := memMap
    word := word
    free := q
    secondary := { head := 0, nr := 0 }
    reclaiming := [] }

inductive Event where
  | getFreePage (pid : ℕ) (priority : Priority) (interrupt : Bool)
  | reclaimed (pid : ℕ) (freed : Bool)
  | freePage (addr : ℕ)
  | share (nr : ℕ)
  | write (addr value : ℕ)

def Mm.step (mm : Mm) : Event → Mm × Outcome
  | .getFreePage pid priority interrupt => mm.getFreePage pid priority interrupt
  | .reclaimed pid freed => mm.reclaimed pid freed
  | .freePage addr => (mm.freePage addr, .none)
  | .share nr =>
    if 0 < mm.memMap nr ∧ mm.memMap nr + 1 < mapPageReserved then
      ({ mm with memMap := update mm.memMap nr (mm.memMap nr + 1) }, .none)
    else (mm, .none)
  | .write addr value =>
    if mm.memMap (mapNr addr) ≠ 0 then
      ({ mm with word := update mm.word (pageMask addr) value }, .none)
    else (mm, .none)

def Mm.run (mm : Mm) : List Event → Mm
  | [] => mm
  | e :: es => (mm.step e).1.run es

/-! ## The invariant -/

def Mm.IsPage (mm : Mm) (addr : ℕ) : Prop := addr % pageSize = 0 ∧ addr < mm.highMemory

/-- `freed` and `second` are the pages the two lists visit; together they are the
pages with count zero, each once. -/
structure Mm.Lists (mm : Mm) (freed second : List ℕ) : Prop where
  free_linked : Linked 0 mm.word mm.free.head freed
  second_linked : Linked 0 mm.word mm.secondary.head second
  free_nr : mm.free.nr = freed.length
  second_nr : mm.secondary.nr = second.length
  second_le : second.length ≤ maxSecondaryPages
  nodup : (freed ++ second).Nodup
  mem_iff : ∀ addr, addr ∈ freed ++ second ↔ mm.IsPage addr ∧ mm.memMap (mapNr addr) = 0
  zero_reserved : mm.memMap 0 = mapPageReserved

theorem pageMask_isPage {mm : Mm} {addr : ℕ} (h : addr < mm.highMemory) :
    mm.IsPage (pageMask addr) := by
  constructor
  · exact Nat.mul_mod_left _ _
  · exact lt_of_le_of_lt (Nat.div_mul_le_self addr pageSize) h

theorem mapNr_pageMask (addr : ℕ) : mapNr (pageMask addr) = mapNr addr :=
  Nat.mul_div_cancel _ (by decide)

theorem eq_pageMask {mm : Mm} {page addr : ℕ} (hpage : mm.IsPage page)
    (h : mapNr page = mapNr addr) : page = pageMask addr := by
  have hmod := hpage.1
  unfold pageMask mapNr pageSize at *
  omega

section Lists

variable {mm : Mm} {freed second : List ℕ}

theorem removeFromMemQueue_eq {q : Queue} {pages : List ℕ} (hlink : Linked 0 mm.word q.head pages)
    (hnr : q.nr = pages.length)
    (hfree : ∀ page ∈ pages, mm.IsPage page ∧ mm.memMap (mapNr page) = 0) :
    (pages = [] ∧ removeFromMemQueue mm q = (none, mm.memMap, q)) ∨
      ∃ page rest, pages = page :: rest ∧ Linked 0 mm.word (mm.word page) rest ∧
        removeFromMemQueue mm q =
          (some page, update mm.memMap (mapNr page) 1,
            { head := mm.word page, nr := q.nr - 1 }) := by
  unfold removeFromMemQueue
  by_cases hhead : q.head = 0
  · have hnil : pages = [] := by
      rw [hhead] at hlink
      exact hlink.eq_nil
    left
    refine ⟨hnil, ?_⟩
    rw [if_neg (not_not.mpr hhead)]
    have hq : ({ q with nr := 0 } : Queue) = q := by
      cases q
      simp_all
    rw [hq]
  · right
    obtain ⟨rest, hpages, hrest⟩ := hlink.pop hhead
    obtain ⟨hpage, hcount⟩ := hfree q.head (by rw [hpages]; exact mem_cons_self ..)
    refine ⟨q.head, rest, hpages, hrest, ?_⟩
    rw [if_pos hhead, if_pos ⟨hpage.1, hpage.2⟩, if_pos hcount]

section
variable (h : mm.Lists freed second)
include h

theorem Mm.Lists.free_of_mem : ∀ page ∈ freed, mm.IsPage page ∧ mm.memMap (mapNr page) = 0 := by
  intro page hpage
  exact (h.mem_iff page).mp (mem_append_left _ hpage)

theorem Mm.Lists.second_of_mem : ∀ page ∈ second, mm.IsPage page ∧ mm.memMap (mapNr page) = 0 := by
  intro page hpage
  exact (h.mem_iff page).mp (mem_append_right _ hpage)

theorem Mm.Lists.mem_iff_take {page : ℕ} (hpage : page ∈ freed ++ second) {pages : List ℕ}
    (hpages : ∀ addr, addr ∈ pages ↔ addr ∈ freed ++ second ∧ addr ≠ page) (addr : ℕ) :
    addr ∈ pages ↔ mm.IsPage addr ∧ update mm.memMap (mapNr page) 1 (mapNr addr) = 0 := by
  obtain ⟨hisPage, _⟩ := (h.mem_iff page).mp hpage
  rw [hpages, h.mem_iff]
  constructor
  · rintro ⟨⟨haddr, hcount⟩, hne⟩
    refine ⟨haddr, ?_⟩
    have hnr : mapNr addr ≠ mapNr page := by
      intro heq
      apply hne
      have h1 := eq_pageMask haddr heq
      have h2 := eq_pageMask hisPage (rfl : mapNr page = mapNr page)
      rw [h1, ← h2]
    rw [update_of_ne hnr]
    exact hcount
  · rintro ⟨haddr, hcount⟩
    have hnr : mapNr addr ≠ mapNr page := by
      intro heq
      rw [heq, update_self] at hcount
      omega
    rw [update_of_ne hnr] at hcount
    refine ⟨⟨haddr, hcount⟩, ?_⟩
    intro heq
    exact hnr (by rw [heq])

theorem Mm.Lists.zero_take {page : ℕ} (hpage : page ∈ freed ++ second) :
    update mm.memMap (mapNr page) 1 0 = mapPageReserved := by
  have hne : (0 : ℕ) ≠ mapNr page := by
    intro heq
    have hcount := ((h.mem_iff page).mp hpage).2
    rw [← heq, h.zero_reserved] at hcount
    exact absurd hcount (by decide)
  rw [update_of_ne hne]
  exact h.zero_reserved

end

/-- What the removal from either list does: nothing, or it takes a free page. -/
structure Taken (mm mm' : Mm) (page : ℕ) : Prop where
  isPage : mm.IsPage page
  free_before : mm.memMap (mapNr page) = 0
  used_after : mm'.memMap (mapNr page) = 1

theorem Mm.Lists.removed (h : mm.Lists freed second) (hperm : (freed ++ second).Perm (page :: l)) :
    page ∈ freed ++ second ∧ l.Nodup ∧
      ∀ addr, addr ∈ l ↔ addr ∈ freed ++ second ∧ addr ≠ page := by
  have hnodup := hperm.nodup_iff.mp h.nodup
  refine ⟨hperm.mem_iff.mpr mem_cons_self, (nodup_cons.mp hnodup).2, fun addr => ?_⟩
  rw [hperm.mem_iff, mem_cons]
  constructor
  · intro hin
    exact ⟨.inr hin, fun heq => (nodup_cons.mp hnodup).1 (heq ▸ hin)⟩
  · rintro ⟨heq | hin, hne⟩
    · exact absurd heq hne
    · exact hin

theorem Mm.Lists.removeFree (h : mm.Lists freed second) :
    ∃ freed', mm.removeFree.1.Lists freed' second ∧
      ∀ page, mm.removeFree.2 = some page → Taken mm mm.removeFree.1 page := by
  unfold Mm.removeFree
  rcases removeFromMemQueue_eq h.free_linked h.free_nr h.free_of_mem with
    ⟨hnil, heq⟩ | ⟨page, rest, hpages, hlink, heq⟩
  · rw [heq]
    exact ⟨freed, h, by simp⟩
  · rw [heq]
    have hperm : (freed ++ second).Perm (page :: (rest ++ second)) := by rw [hpages, cons_append]
    obtain ⟨hmem, hnodup, hpages'⟩ := h.removed hperm
    refine ⟨rest, ⟨hlink, h.second_linked, ?_, h.second_nr, h.second_le,
      hnodup, h.mem_iff_take hmem hpages', h.zero_take hmem⟩, ?_⟩
    · have hnr := h.free_nr
      rw [hpages, length_cons] at hnr
      rw [hnr]
      push_cast
      ring
    · intro page' hpage'
      rw [Option.some.injEq] at hpage'
      rw [← hpage']
      obtain ⟨hisPage, hcount⟩ := (h.mem_iff page).mp hmem
      exact ⟨hisPage, hcount, update_self ..⟩

theorem Mm.Lists.removeSecondary (h : mm.Lists freed second) :
    ∃ second', mm.removeSecondary.1.Lists freed second' ∧
      ∀ page, mm.removeSecondary.2 = some page → Taken mm mm.removeSecondary.1 page := by
  unfold Mm.removeSecondary
  rcases removeFromMemQueue_eq h.second_linked h.second_nr h.second_of_mem with
    ⟨hnil, heq⟩ | ⟨page, rest, hpages, hlink, heq⟩
  · rw [heq]
    exact ⟨second, h, by simp⟩
  · rw [heq]
    have hperm : (freed ++ second).Perm (page :: (freed ++ rest)) := by
      rw [hpages]
      exact perm_middle
    obtain ⟨hmem, hnodup, hpages'⟩ := h.removed hperm
    have hnr := h.second_nr
    have hle := h.second_le
    rw [hpages, length_cons] at hnr hle
    refine ⟨rest, ⟨h.free_linked, hlink, h.free_nr, ?_, by omega,
      hnodup, h.mem_iff_take hmem hpages', h.zero_take hmem⟩, ?_⟩
    · rw [hnr]
      push_cast
      ring
    · intro page' hpage'
      rw [Option.some.injEq] at hpage'
      rw [← hpage']
      obtain ⟨hisPage, hcount⟩ := (h.mem_iff page).mp hmem
      exact ⟨hisPage, hcount, update_self ..⟩

theorem Mm.Lists.setReclaiming (h : mm.Lists freed second) (pids : List ℕ) :
    Mm.Lists { mm with reclaiming := pids } freed second :=
  ⟨h.free_linked, h.second_linked, h.free_nr, h.second_nr, h.second_le, h.nodup, h.mem_iff,
    h.zero_reserved⟩

end Lists

/-! ## Allocation -/

def Mm.Inv (mm : Mm) : Prop := ∃ freed second, mm.Lists freed second

/-- A step keeps the lists in order, and a page it returns was free and is used
now. -/
structure StepOk (mm : Mm) (r : Mm × Outcome) : Prop where
  inv : r.1.Inv
  taken : ∀ page, r.2 = .returned page → page ≠ 0 → Taken mm r.1 page

section Steps

variable {mm : Mm}

section
variable (h : mm.Inv)
include h

theorem Mm.Inv.fromSecondary : StepOk mm mm.fromSecondary := by
  obtain ⟨freed, second, hlists⟩ := h
  obtain ⟨second', hlists', htaken⟩ := hlists.removeSecondary
  refine ⟨⟨freed, second', hlists'⟩, ?_⟩
  intro page hreturned hne
  simp only [Mm.fromSecondary, Outcome.returned.injEq] at hreturned
  cases hresult : mm.removeSecondary.2 with
  | none =>
    rw [hresult, Option.getD_none] at hreturned
    exact absurd hreturned.symm hne
  | some page' =>
    rw [hresult, Option.getD_some] at hreturned
    rw [← hreturned]
    exact htaken page' hresult

theorem Mm.Inv.removeFree_none (hnone : mm.removeFree.2 = none) : mm.removeFree.1 = mm := by
  obtain ⟨freed, second, hlists⟩ := h
  unfold Mm.removeFree at hnone ⊢
  rcases removeFromMemQueue_eq hlists.free_linked hlists.free_nr hlists.free_of_mem with
    ⟨_, heq⟩ | ⟨page, rest, _, _, heq⟩
  · rw [heq]
  · rw [heq] at hnone
    simp at hnone

theorem Mm.Inv.attempt (pid : ℕ) (priority : Priority) : StepOk mm (mm.attempt pid priority) := by
  obtain ⟨freed, second, hlists⟩ := h
  obtain ⟨freed', hlists', htaken⟩ := hlists.removeFree
  unfold Mm.attempt
  cases hresult : mm.removeFree.2 with
  | some page =>
    dsimp only
    rw [hresult]
    refine ⟨⟨freed', second, hlists'⟩, ?_⟩
    intro page' hreturned _
    rw [Outcome.returned.injEq] at hreturned
    rw [← hreturned]
    exact htaken page hresult
  | none =>
    dsimp only
    rw [hresult]
    dsimp only
    have hsame := Mm.Inv.removeFree_none ⟨freed, second, hlists⟩ hresult
    split
    · refine ⟨⟨freed', second, hlists'⟩, ?_⟩
      intro page hreturned hne
      rw [Outcome.returned.injEq] at hreturned
      exact absurd hreturned.symm hne
    · split
      · exact ⟨⟨freed', second, hlists'.setReclaiming _⟩, by simp⟩
      · rw [hsame]
        exact Mm.Inv.fromSecondary ⟨freed, second, hlists⟩

theorem Mm.Inv.reclaimed (pid : ℕ) (freed : Bool) : StepOk mm (mm.reclaimed pid freed) := by
  unfold Mm.reclaimed
  split
  · obtain ⟨fs, ss, hlists⟩ := h
    have hinv : Mm.Inv { mm with reclaiming := mm.reclaiming.erase pid } :=
      ⟨fs, ss, hlists.setReclaiming _⟩
    split
    · obtain ⟨hinv', htaken⟩ := hinv.attempt pid .kernel
      refine ⟨hinv', ?_⟩
      intro page hreturned hne
      obtain ⟨h1, h2, h3⟩ := htaken page hreturned hne
      exact ⟨h1, h2, h3⟩
    · obtain ⟨hinv', htaken⟩ := hinv.fromSecondary
      refine ⟨hinv', ?_⟩
      intro page hreturned hne
      obtain ⟨h1, h2, h3⟩ := htaken page hreturned hne
      exact ⟨h1, h2, h3⟩
  · exact ⟨h, by simp⟩

omit h in
theorem zero_ne_of_count (hzero : mm.memMap 0 = mapPageReserved) {nr : ℕ}
    (hcount : mm.memMap nr &&& mapPageReserved = 0) : (0 : ℕ) ≠ nr := by
  intro heq
  rw [← heq, hzero] at hcount
  exact absurd hcount (by decide)

omit h in
theorem Mm.Lists.mem_iff_put {freed second : List ℕ} (h : mm.Lists freed second) {addr : ℕ}
    (haddr : addr < mm.highMemory) {pages : List ℕ}
    (hpages : ∀ page, page ∈ pages ↔ page = pageMask addr ∨ page ∈ freed ++ second) (page : ℕ) :
    page ∈ pages ↔ mm.IsPage page ∧ update mm.memMap (mapNr addr) 0 (mapNr page) = 0 := by
  rw [hpages, h.mem_iff]
  by_cases hnr : mapNr page = mapNr addr
  · rw [hnr, update_self]
    constructor
    · rintro (heq | hin)
      · rw [heq]
        exact ⟨pageMask_isPage haddr, rfl⟩
      · exact ⟨hin.1, rfl⟩
    · rintro ⟨hpage, _⟩
      exact .inl (eq_pageMask hpage hnr)
  · rw [update_of_ne hnr]
    constructor
    · rintro (heq | hin)
      · rw [heq, mapNr_pageMask] at hnr
        exact absurd rfl hnr
      · exact hin
    · intro hin
      exact .inr hin

theorem Mm.Inv.freePage (addr : ℕ) : (mm.freePage addr).Inv := by
  obtain ⟨freed, second, hlists⟩ := h
  unfold Mm.freePage
  split
  · rename_i haddr
    dsimp only
    split
    · rename_i hused
      split
      · rename_i hreserved
        have hzero := zero_ne_of_count hlists.zero_reserved hreserved
        have hnotmem : pageMask addr ∉ freed ++ second := by
          intro hmem
          have hcount := ((hlists.mem_iff _).mp hmem).2
          rw [mapNr_pageMask] at hcount
          exact hused hcount
        have hpos : pageMask addr ≠ 0 := by
          intro heq
          have hnr := mapNr_pageMask addr
          rw [heq] at hnr
          exact hzero hnr
        split
        · rename_i hlast
          rw [hlast]
          have hmap : update mm.memMap (mapNr addr) 0 0 = mapPageReserved := by
            rw [update_of_ne hzero]
            exact hlists.zero_reserved
          have hnotfree : pageMask addr ∉ freed := fun hin => hnotmem (mem_append_left _ hin)
          have hnotsecond : pageMask addr ∉ second := fun hin => hnotmem (mem_append_right _ hin)
          have hkeep : ∀ pages : List ℕ, pageMask addr ∉ pages → ∀ value, ∀ page ∈ pages,
              update mm.word (pageMask addr) value page = mm.word page := by
            intro pages hnot value page hpage
            apply update_of_ne
            intro heq
            exact hnot (heq ▸ hpage)
          split
          · rename_i hroom
            have hsecond_nr := hlists.second_nr
            refine ⟨freed, pageMask addr :: second, hlists.free_linked.congr
              (hkeep freed hnotfree _), hlists.second_linked.push hpos hnotsecond, hlists.free_nr,
              ?_, ?_, ?_, hlists.mem_iff_put haddr ?_, hmap⟩
            · simp only [addMemQueue, length_cons]
              rw [hsecond_nr]
              push_cast
              ring
            · simp only [length_cons]
              omega
            · exact nodup_middle.mpr (nodup_cons.mpr ⟨hnotmem, hlists.nodup⟩)
            · intro page
              simp only [mem_append, mem_cons]
              tauto
          · have hfree_nr := hlists.free_nr
            refine ⟨pageMask addr :: freed, second, hlists.free_linked.push hpos hnotfree,
              hlists.second_linked.congr (hkeep second hnotsecond _), ?_, hlists.second_nr,
              hlists.second_le, nodup_cons.mpr ⟨hnotmem, hlists.nodup⟩,
              hlists.mem_iff_put haddr ?_, hmap⟩
            · simp only [addMemQueue, length_cons]
              rw [hfree_nr]
              push_cast
              ring
            · intro page
              simp only [mem_append, mem_cons]
              tauto
        · rename_i hmore
          refine ⟨freed, second, hlists.free_linked, hlists.second_linked, hlists.free_nr,
            hlists.second_nr, hlists.second_le, hlists.nodup, ?_, ?_⟩
          · intro page
            rw [hlists.mem_iff]
            dsimp only
            by_cases hnr : mapNr page = mapNr addr
            · rw [hnr, update_self]
              constructor
              · intro hin
                exact absurd hin.2 hused
              · intro hin
                exact absurd hin.2 hmore
            · rw [update_of_ne hnr]
              exact Iff.rfl
          · dsimp only
            rw [update_of_ne hzero]
            exact hlists.zero_reserved
      · exact ⟨freed, second, hlists⟩
    · exact ⟨freed, second, hlists⟩
  · exact ⟨freed, second, hlists⟩

theorem Mm.Inv.step (e : Event) : StepOk mm (mm.step e) := by
  cases e with
  | getFreePage pid priority interrupt => exact h.attempt pid _
  | reclaimed pid freed => exact h.reclaimed pid freed
  | freePage addr => exact ⟨h.freePage addr, by simp [Mm.step]⟩
  | share nr =>
    obtain ⟨freed, second, hlists⟩ := h
    unfold Mm.step
    dsimp only
    split
    · rename_i hshare
      refine ⟨⟨freed, second, hlists.free_linked, hlists.second_linked, hlists.free_nr,
        hlists.second_nr, hlists.second_le, hlists.nodup, ?_, ?_⟩, by simp⟩
      · intro page
        rw [hlists.mem_iff]
        dsimp only
        by_cases hnr : mapNr page = nr
        · rw [hnr, update_self]
          constructor
          · intro hin
            omega
          · intro hin
            omega
        · rw [update_of_ne hnr]
          exact Iff.rfl
      · dsimp only
        have hne : (0 : ℕ) ≠ nr := by
          intro heq
          rw [← heq, hlists.zero_reserved] at hshare
          omega
        rw [update_of_ne hne]
        exact hlists.zero_reserved
    · exact ⟨⟨freed, second, hlists⟩, by simp⟩
  | write addr value =>
    obtain ⟨freed, second, hlists⟩ := h
    unfold Mm.step
    dsimp only
    split
    · rename_i hused
      have hkeep : ∀ page ∈ freed ++ second,
          update mm.word (pageMask addr) value page = mm.word page := by
        intro page hpage
        apply update_of_ne
        intro heq
        have hcount := ((hlists.mem_iff page).mp hpage).2
        rw [heq, mapNr_pageMask] at hcount
        exact hused hcount
      refine ⟨⟨freed, second,
        hlists.free_linked.congr fun page hpage => hkeep page (mem_append_left _ hpage),
        hlists.second_linked.congr fun page hpage => hkeep page (mem_append_right _ hpage),
        hlists.free_nr, hlists.second_nr, hlists.second_le, hlists.nodup, hlists.mem_iff,
        hlists.zero_reserved⟩, by simp⟩
    · exact ⟨⟨freed, second, hlists⟩, by simp⟩

theorem Mm.Inv.run (es : List Event) : (mm.run es).Inv := by
  induction es generalizing mm with
  | nil => exact h
  | cons e es ih => exact ih (h.step e).inv

end

end Steps

theorem initQueue_lists (memMap : ℕ → ℕ) (hzero : memMap 0 ≠ 0) (n : ℕ) :
    ∃ pages, Linked 0 (initQueue memMap n).1 (initQueue memMap n).2.head pages ∧
      (initQueue memMap n).2.nr = pages.length ∧ pages.Nodup ∧
      ∀ addr, addr ∈ pages ↔
        addr % pageSize = 0 ∧ addr < n * pageSize ∧ memMap (mapNr addr) = 0 := by
  induction n with
  | zero => exact ⟨[], rfl, rfl, nodup_nil, by simp⟩
  | succ n ih =>
    obtain ⟨pages, hlink, hnr, hnodup, hmem⟩ := ih
    have hstep : ∀ addr, addr % pageSize = 0 → (addr < (n + 1) * pageSize ↔
        addr = n * pageSize ∨ addr < n * pageSize) := by
      intro addr haddr
      unfold pageSize at *
      omega
    have hnr_mapNr : mapNr (n * pageSize) = n := Nat.mul_div_cancel _ (by decide)
    unfold initQueue
    dsimp only
    split
    · rename_i hused
      refine ⟨pages, hlink, hnr, hnodup, ?_⟩
      intro addr
      rw [hmem]
      constructor
      · rintro ⟨h1, h2, h3⟩
        exact ⟨h1, (hstep addr h1).mpr (.inr h2), h3⟩
      · rintro ⟨h1, h2, h3⟩
        refine ⟨h1, ?_, h3⟩
        rcases (hstep addr h1).mp h2 with heq | hlt
        · rw [heq, hnr_mapNr] at h3
          exact absurd h3 hused
        · exact hlt
    · rename_i hfree
      rw [not_not] at hfree
      have hnotmem : n * pageSize ∉ pages := by
        intro hin
        have := ((hmem _).mp hin).2.1
        omega
      have hpos : n * pageSize ≠ 0 := by
        intro heq
        have hn : n = 0 := by
          unfold pageSize at heq
          omega
        rw [hn] at hfree
        exact hzero hfree
      refine ⟨n * pageSize :: pages, hlink.push hpos hnotmem, ?_,
        nodup_cons.mpr ⟨hnotmem, hnodup⟩, ?_⟩
      · simp only [length_cons]
        rw [hnr]
        push_cast
        ring
      · intro addr
        rw [mem_cons, hmem]
        constructor
        · rintro (heq | ⟨h1, h2, h3⟩)
          · have hmod : addr % pageSize = 0 := by
              rw [heq]
              exact Nat.mul_mod_left _ _
            refine ⟨hmod, (hstep addr hmod).mpr (.inl heq), ?_⟩
            rw [heq, hnr_mapNr]
            exact hfree
          · exact ⟨h1, (hstep addr h1).mpr (.inr h2), h3⟩
        · rintro ⟨h1, h2, h3⟩
          rcases (hstep addr h1).mp h2 with heq | hlt
          · exact .inl heq
          · exact .inr ⟨h1, hlt, h3⟩

theorem memInit_inv {startLowMem startMem endMem : ℕ} (hlow : 0 < startLowMem)
    (hstart : 0 < startMem) : (memInit startLowMem startMem endMem).Inv := by
  have hzero : initMap startLowMem startMem (pageMask endMem) 0 = mapPageReserved := by
    unfold initMap
    rw [if_neg]
    unfold pageAlign pageSize
    omega
  obtain ⟨pages, hlink, hnr, hnodup, hmem⟩ := initQueue_lists
    (initMap startLowMem startMem (pageMask endMem)) (by rw [hzero]; decide)
    (mapNr (pageMask endMem))
  refine ⟨pages, [], hlink, rfl, hnr, rfl, by decide, ?_, ?_, hzero⟩
  · rw [append_nil]
    exact hnodup
  · intro addr
    rw [append_nil, hmem]
    have hend : mapNr (pageMask endMem) * pageSize = pageMask endMem := by
      rw [mapNr_pageMask]
      rfl
    rw [hend]
    exact ⟨fun h => ⟨⟨h.1, h.2.1⟩, h.2.2⟩, fun h => ⟨h.1.1, h.1.2, h.2⟩⟩

/-- A page has count zero exactly when it is on exactly one of the two lists,
exactly once; the counters are the lengths. -/
structure Mm.PagesOk (mm : Mm) (freed second : List ℕ) : Prop where
  free_linked : Linked 0 mm.word mm.free.head freed
  second_linked : Linked 0 mm.word mm.secondary.head second
  free_iff : ∀ page, mm.IsPage page →
    (mm.memMap (mapNr page) = 0 ↔ freed.count page + second.count page = 1)
  listed : ∀ page ∈ freed ++ second, mm.IsPage page
  free_nr : mm.free.nr = freed.length
  second_nr : mm.secondary.nr = second.length
  second_le : second.length ≤ maxSecondaryPages

theorem Mm.Lists.pagesOk {mm : Mm} {freed second : List ℕ} (h : mm.Lists freed second) :
    mm.PagesOk freed second := by
  refine ⟨h.free_linked, h.second_linked, ?_, fun page hpage => ((h.mem_iff page).mp hpage).1,
    h.free_nr, h.second_nr, h.second_le⟩
  intro page hpage
  rw [← count_append]
  constructor
  · intro hcount
    exact count_eq_one_of_mem h.nodup ((h.mem_iff page).mpr ⟨hpage, hcount⟩)
  · intro hcount
    have hmem : page ∈ freed ++ second := count_pos_iff.mp (by omega)
    exact ((h.mem_iff page).mp hmem).2

/-- The allocator after any calls from the state `mem_init` leaves: its lists are
in order, `__get_free_page` returns only pages that were free, and a page with
other users stays with them. -/
theorem run_pagesOk {startLowMem startMem endMem : ℕ} (hlow : 0 < startLowMem)
    (hstart : 0 < startMem) (es : List Event) :
    let mm := (memInit startLowMem startMem endMem).run es
    (∃ freed second, mm.PagesOk freed second) ∧
      (∀ e page, (mm.step e).2 = .returned page → page ≠ 0 → Taken mm (mm.step e).1 page) ∧
      ∀ addr, addr < mm.highMemory → 1 < mm.memMap (mapNr addr) →
        mm.memMap (mapNr addr) &&& mapPageReserved = 0 →
        mm.freePage addr =
          { mm with memMap := update mm.memMap (mapNr addr) (mm.memMap (mapNr addr) - 1) } := by
  intro mm
  have hinv : mm.Inv := (memInit_inv hlow hstart).run es
  refine ⟨?_, fun e => (hinv.step e).taken, ?_⟩
  · obtain ⟨freed, second, hlists⟩ := hinv
    exact ⟨freed, second, hlists.pagesOk⟩
  · intro addr haddr hcount hreserved
    unfold Mm.freePage
    rw [if_pos haddr, if_pos (by omega), if_pos hreserved, if_neg (by omega)]

/-- Four pages of memory above a kernel that ends in the second page. -/
theorem run_pagesOk_small :
    let mm := (memInit 4096 8192 16384).run
      [.getFreePage 1 .kernel false, .getFreePage 2 .kernel false, .freePage 12288]
    (∃ freed second, mm.PagesOk freed second) ∧
      (∀ e page, (mm.step e).2 = .returned page → page ≠ 0 → Taken mm (mm.step e).1 page) ∧
      ∀ addr, addr < mm.highMemory → 1 < mm.memMap (mapNr addr) →
        mm.memMap (mapNr addr) &&& mapPageReserved = 0 →
        mm.freePage addr =
          { mm with memMap := update mm.memMap (mapNr addr) (mm.memMap (mapNr addr) - 1) } :=
  run_pagesOk (by decide) (by decide) _

end LinuxKernel.PageAlloc
