import Mathlib.Tactic

/-!
# `select`

`do_select`, `check` and `free_wait` of `fs/select.c` with `select_wait` of `sched.h`, for one
process.  The descriptors are open and the page of the table is there, or `do_select` has
returned before the scan; behind the last descriptor that is asked for there is nothing to scan.

A step of the process is what it does between two places where an interrupt or another process
can come in.  The select routine of a file names a wait queue, before or after it looks at the
file, or none.
-/

namespace LinuxKernel.Select
open Function

inductive Kind where
  | selIn
  | selOut
  | selEx
  deriving DecidableEq

abbrev Request := ℕ × Kind

def maxSelectTableEntries : ℕ := 4096 / 12

/-- What the select routines of the files do: the wait queue that they pass to `select_wait`,
and whether they do so before they look. -/
structure Routines (Queue : Type) where
  queue : Request → Option Queue
  early : Request → Bool

inductive Op where
  | selectWait
  | look
  deriving DecidableEq

inductive Pc where
  /-- In the scan, with the requests left and what is left to do for the first of them. -/
  | scan (rest : List Request) (ops : List Op)
  | schedule
  | returned
  deriving DecidableEq

/-- `table` has the wait queues of the entries of `wait_table`, `entries` the entries of the
process on each wait queue, and `res` what is in the result sets. -/
structure State (Queue : Type) where
  ready : Request → Bool
  running : Bool
  wait : Bool
  table : List Queue
  entries : Queue → ℕ
  res : List Request
  count : ℕ
  pc : Pc

def requests (n : ℕ) (sets : Kind → ℕ → Bool) : List Request :=
  (List.range n).flatMap fun i =>
    ([.selIn, .selOut, .selEx].filter fun kind => sets kind i).map fun kind => (i, kind)

section

variable {Queue : Type} [DecidableEq Queue] (f : Routines Queue) (reqs : List Request)

def State.selectWait (s : State Queue) (waitAddress : Option Queue) : State Queue :=
  match waitAddress with
  | none => s
  | some q =>
    if s.wait = false ∨ maxSelectTableEntries ≤ s.table.length then s
    else { s with table := q :: s.table, entries := update s.entries q (s.entries q + 1) }

def freeWait (entries : Queue → ℕ) : List Queue → Queue → ℕ
  | [] => entries
  | q :: table => freeWait (update entries q (entries q - 1)) table

def State.check (s : State Queue) (rest : List Request) : State Queue :=
  { s with pc := .scan rest <| match rest with
    | [] => []
    | r :: _ =>
      if s.wait = false then [.look]
      else if f.early r then [.selectWait, .look, .look] else [.look, .selectWait, .look] }

def State.step (s : State Queue) (sleeps : Bool) : State Queue :=
  match s.pc with
  | .scan [] _ =>
    if s.count = 0 ∧ sleeps then { s with wait := false, pc := .schedule }
    else
      { s with
        wait := false, table := [], entries := freeWait s.entries s.table
        running := true, pc := .returned }
  | .scan (_ :: rest) [] => s.check f rest
  | .scan (r :: rest) (.selectWait :: ops) =>
    { s.selectWait (f.queue r) with pc := .scan (r :: rest) ops }
  | .scan (r :: rest) (.look :: ops) =>
    if s.ready r then
      { s with res := s.res ++ [r], count := s.count + 1, wait := false }.check f rest
    else { s with pc := .scan (r :: rest) ops }
  | .schedule => if s.running then { s with running := false }.check f reqs else s
  | .returned => s

/-- `sleeps` says whether there is time left and no signal.  A file that becomes ready wakes its
wait queue, and signals and timers wake the process. -/
inductive Event where
  | step (sleeps : Bool)
  | ready (r : Request)
  | unready (r : Request)
  | wake

def next (s : State Queue) : Event → State Queue
  | .step sleeps => s.step f reqs sleeps
  | .ready r =>
    { s with
      ready := update s.ready r true
      running := s.running || (f.queue r).any fun q => 0 < s.entries q }
  | .unready r => { s with ready := update s.ready r false }
  | .wake => { s with running := true }

def run (s : State Queue) (es : List Event) : State Queue := es.foldl (next f reqs) s

def start (ready : Request → Bool) : State Queue :=
  State.check f ⟨ready, false, true, [], fun _ => 0, [], 0, .returned⟩ reqs

def StepOk (s : State Queue) : Event → Prop
  | .step _ =>
    ∀ r rest ops, s.pc = .scan (r :: rest) (.selectWait :: ops) → s.wait = true →
      f.queue r ≠ none → s.table.length < maxSelectTableEntries
  | _ => True

def RunOk (s : State Queue) : List Event → Prop
  | [] => True
  | e :: es => StepOk f s e ∧ RunOk (next f reqs s e) es

def On (entries : Queue → ℕ) (r : Request) : Prop := ∀ q ∈ f.queue r, 0 < entries q

/-- The file is not ready, or the process has been woken since. -/
def Quiet (ready : Request → Bool) (running : Bool) (r : Request) : Prop :=
  ready r = true → f.queue r ≠ none → running = true

/-! ## Runs -/

variable {f} {reqs} {s : State Queue}

theorem freeWait_eq (entries : Queue → ℕ) (table : List Queue)
    (h : ∀ q, entries q = table.count q) (q : Queue) : freeWait entries table q = 0 := by
  induction table generalizing entries with
  | nil => exact h q
  | cons p table ih =>
    refine ih _ fun x => ?_
    grind [update_apply]

theorem selectWait_cases (s : State Queue) (waitAddress : Option Queue) :
    (s.selectWait waitAddress = s ∧ (waitAddress ≠ none → s.wait = true →
      maxSelectTableEntries ≤ s.table.length)) ∨
    ∃ q, waitAddress = some q ∧ s.selectWait waitAddress =
      { s with table := q :: s.table, entries := update s.entries q (s.entries q + 1) } := by
  unfold State.selectWait
  split
  · exact .inl ⟨rfl, fun hne => absurd rfl hne⟩
  · rename_i q
    split_ifs with hfull
    · exact .inl ⟨rfl, fun _ hwait => hfull.resolve_left (by simp [hwait])⟩
    · exact .inr ⟨q, rfl, rfl⟩

/-- While nothing has been found, the requests that the scan has passed are watched, and after
the first scan every request has its entry. -/
structure Inv (f : Routines Queue) (reqs : List Request) (s : State Queue) : Prop where
  counted : ∀ q, s.entries q = s.table.count q
  size : s.count = s.res.length
  found : ∀ rest ops, s.pc = .scan rest ops → (s.res ++ rest).Sublist reqs
  past : ∀ rest ops, s.pc = .scan rest ops → s.res = [] → ∀ r ∈ reqs, r ∉ rest →
    On f s.entries r ∧ Quiet f s.ready s.running r
  first : ∀ r rest ops, s.pc = .scan (r :: rest) ops → s.res = [] →
    (.selectWait ∉ ops → On f s.entries r) ∧ (ops = [] → Quiet f s.ready s.running r) ∧
      ops.getLast? ≠ some .selectWait
  all : s.res = [] → s.wait = false → s.pc ≠ .returned → ∀ r ∈ reqs, On f s.entries r
  schedule : s.pc = .schedule → s.res = [] ∧ s.wait = false ∧
    ∀ r ∈ reqs, Quiet f s.ready s.running r
  returned : s.pc = .returned → s.table = [] ∧ s.res.Sublist reqs

theorem Inv.check {rest : List Request} (hcounted : ∀ q, s.entries q = s.table.count q)
    (hsize : s.count = s.res.length) (hfound : (s.res ++ rest).Sublist reqs)
    (hpast : s.res = [] → ∀ r ∈ reqs, r ∉ rest → On f s.entries r ∧ Quiet f s.ready s.running r)
    (hall : s.res = [] → s.wait = false → ∀ r ∈ reqs, On f s.entries r) :
    Inv f reqs (s.check f rest) where
  counted := hcounted
  size := hsize
  found rest' ops hpc := by
    obtain ⟨rfl, -⟩ := Pc.scan.inj hpc
    exact hfound
  past rest' ops hpc := by
    obtain ⟨rfl, -⟩ := Pc.scan.inj hpc
    exact hpast
  first r rest' ops hpc hnil := by
    obtain ⟨rfl, rfl⟩ := Pc.scan.inj hpc
    dsimp only
    split_ifs with hwait
    · exact ⟨fun _ => hall hnil hwait r (hfound.subset (by simp)), by simp⟩
    · simp
    · simp
  all hnil hwait _ := hall hnil hwait
  schedule := nofun
  returned := nofun

theorem Inv.start (f : Routines Queue) (reqs : List Request) (ready : Request → Bool) :
    Inv f reqs (start f reqs ready) :=
  Inv.check (fun _ => rfl) rfl (List.Sublist.refl _) (fun _ _ hr hnot => absurd hr hnot) nofun

section
variable (h : Inv f reqs s)
include h

theorem Inv.frame {s' : State Queue} (hpc : s'.pc = s.pc) (hres : s'.res = s.res)
    (hcount : s'.count = s.count) (hwait : s'.wait = s.wait) (htable : s'.table = s.table)
    (hentries : s'.entries = s.entries)
    (hquiet : ∀ r, On f s.entries r → Quiet f s.ready s.running r →
      Quiet f s'.ready s'.running r) : Inv f reqs s' := by
  obtain ⟨hcounted, hsize, hfound, hpast, hfirst, hall, hschedule, hreturned⟩ := h
  constructor <;> grind

theorem Inv.selectWait {r : Request} {rest : List Request} {ops : List Op}
    (hpc : s.pc = .scan (r :: rest) (.selectWait :: ops))
    (hroom : s.wait = true → f.queue r ≠ none → s.table.length < maxSelectTableEntries) :
    Inv f reqs { s.selectWait (f.queue r) with pc := .scan (r :: rest) ops } := by
  obtain ⟨hcounted, hsize, hfound, hpast, hfirst, hall, -, -⟩ := h
  have hr : r ∈ reqs := (hfound _ _ hpc).subset (by simp)
  rcases selectWait_cases s (f.queue r) with ⟨hsame, hfull⟩ | ⟨q, hq, hadded⟩
  · -- nothing is entered: there is no queue, or the first scan is over
    rw [hsame]
    have hself : s.res = [] → On f s.entries r := by
      intro hnil
      cases hw : s.wait with
      | false => exact hall hnil hw (by simp [hpc]) r hr
      | true =>
        intro q hq
        have hne : f.queue r ≠ none := by simp [Option.mem_def.mp hq]
        exact absurd (hroom hw hne) (hfull hne hw).not_gt
    constructor <;> grind
  · have hon : ∀ x, On f s.entries x ∨ x = r →
        On f (update s.entries q (s.entries q + 1)) x := by
      grind [On, update_apply]
    rw [hadded]
    constructor <;> grind [update_apply]

theorem Inv.step {sleeps : Bool} (hok : StepOk f s (.step sleeps)) :
    Inv f reqs (s.step f reqs sleeps) := by
  unfold State.step
  split
  · rename_i hpc
    have hfound := h.found _ _ hpc
    have hpast := h.past _ _ hpc
    have hfree := freeWait_eq s.entries s.table h.counted
    have hcounted := h.counted
    have hsize := h.size
    split <;> constructor <;> grind
  · rename_i r rest hpc
    refine Inv.check h.counted h.size (.trans (by simp) (h.found _ _ hpc))
      (fun hnil x hx hnot => ?_) fun hnil hw => h.all hnil hw (by simp [hpc])
    by_cases hxr : x = r
    · obtain ⟨hon, hquiet, -⟩ := h.first _ _ _ hpc hnil
      exact hxr ▸ ⟨hon List.not_mem_nil, hquiet rfl⟩
    · exact h.past _ _ hpc hnil x hx (by simp [hxr, hnot])
  · rename_i r rest ops hpc
    exact h.selectWait hpc (hok r rest ops hpc)
  · rename_i r rest ops hpc
    split
    · exact Inv.check h.counted (by simp [h.size]) (by simpa using h.found _ _ hpc) (by simp)
        (by simp)
    · rename_i hready
      obtain ⟨hcounted, hsize, hfound, hpast, hfirst, hall, -, -⟩ := h
      have hquiet : Quiet f s.ready s.running r := fun hr' => absurd hr' hready
      constructor <;> grind
  · rename_i hpc
    split
    · obtain ⟨hnil, hw, -⟩ := h.schedule hpc
      exact Inv.check h.counted h.size (by simp [hnil]) (fun _ x hx hnot => absurd hx hnot)
        fun _ _ => h.all hnil hw (by simp [hpc])
    · exact h
  · exact h

omit h in
theorem ready_wakes {r : Request} (hon : On f s.entries r) (hqueue : f.queue r ≠ none) :
    (next f reqs s (.ready r)).running = true := by
  obtain ⟨q, hq⟩ := Option.ne_none_iff_exists'.mp hqueue
  have hpos := hon q hq
  simp [next, hq, hpos]

theorem Inv.next {e : Event} (hok : StepOk f s e) : Inv f reqs (next f reqs s e) := by
  cases e with
  | step sleeps => exact h.step hok
  | ready r =>
    refine h.frame rfl rfl rfl rfl rfl rfl fun x hon hquiet hready hqueue => ?_
    by_cases hxr : x = r
    · exact ready_wakes (hxr ▸ hon) (hxr ▸ hqueue)
    · simp [Select.next, hquiet (by simpa [Select.next, hxr] using hready) hqueue]
  | unready r =>
    refine h.frame rfl rfl rfl rfl rfl rfl fun x _ hquiet hready hqueue => hquiet ?_ hqueue
    by_cases hxr : x = r
    · simp [Select.next, hxr] at hready
    · simpa [Select.next, hxr] using hready
  | wake => exact h.frame rfl rfl rfl rfl rfl rfl fun _ _ _ _ _ => rfl

theorem Inv.run {es : List Event} (hes : RunOk f reqs s es) : Inv f reqs (run f reqs s es) := by
  induction es generalizing s with
  | nil => exact h
  | cons e es ih => exact ih (h.next hes.1) hes.2

end

theorem requests_nodup (n : ℕ) (sets : Kind → ℕ → Bool) : (requests n sets).Nodup := by
  refine List.nodup_flatMap.mpr ⟨fun i _ => ?_, ?_⟩
  · exact (List.Nodup.filter _ (by decide)).map fun _ _ h => (Prod.mk.inj h).2
  · refine List.nodup_range.imp fun {i j} hij r hi hj => hij ?_
    obtain ⟨_, -, rfl⟩ := List.mem_map.mp hi
    obtain ⟨_, -, hr⟩ := List.mem_map.mp hj
    exact ((Prod.mk.inj hr).1).symm

/-- Where the table is large enough, a process that goes to sleep is on the wait queue of every
file that it asks for, while it sleeps none of them is ready, and the next that becomes ready
wakes it.  When it returns, `count` results are among the requests and it is on no wait queue. -/
theorem run_select_ok (f : Routines Queue) (n : ℕ) (sets : Kind → ℕ → Bool)
    (ready : Request → Bool) (es : List Event)
    (hes : RunOk f (requests n sets) (start f (requests n sets) ready) es) :
    let s := run f (requests n sets) (start f (requests n sets) ready) es
    (s.pc = .schedule → ∀ r ∈ requests n sets, On f s.entries r ∧ (f.queue r ≠ none →
      (s.running = false → s.ready r = false) ∧
        (next f (requests n sets) s (.ready r)).running = true)) ∧
    (s.pc = .returned → s.res ⊆ requests n sets ∧ s.res.Nodup ∧ s.count = s.res.length ∧
      ∀ q, s.entries q = 0) := by
  have hinv := (Inv.start f (requests n sets) ready).run hes
  refine ⟨fun hpc r hr => ?_, fun hpc => ?_⟩
  · obtain ⟨hnil, hw, hquiet⟩ := hinv.schedule hpc
    have hon := hinv.all hnil hw (by simp [hpc]) r hr
    refine ⟨hon, fun hqueue => ⟨fun hrunning => ?_, ready_wakes hon hqueue⟩⟩
    by_contra hready
    rw [hquiet r hr (by simpa using hready) hqueue] at hrunning
    cases hrunning
  · obtain ⟨htable, hsub⟩ := hinv.returned hpc
    refine ⟨hsub.subset, hsub.nodup (requests_nodup n sets), hinv.size, fun q => ?_⟩
    rw [hinv.counted, htable, List.count_nil]

end

def ownQueues : Routines Request := ⟨some, fun _ => true⟩

theorem run_select_ok_stdin :
    let reqs := requests 1 fun kind _ => kind = .selIn
    let s := run ownQueues reqs (start ownQueues reqs fun _ => false)
      (List.replicate 5 (.step true))
    On ownQueues s.entries (0, .selIn) ∧ (ownQueues.queue (0, .selIn) ≠ none →
      (s.running = false → s.ready (0, .selIn) = false) ∧
        (next ownQueues reqs s (.ready (0, .selIn))).running = true) :=
  (run_select_ok ownQueues 1 (fun kind _ => kind = .selIn) (fun _ => false)
    (List.replicate 5 (.step true))
    ⟨fun _ _ _ _ _ _ => by decide, fun _ _ _ _ _ _ => by decide, fun _ _ _ _ _ _ => by decide,
      fun _ _ _ _ _ _ => by decide, fun _ _ _ _ _ _ => by decide, trivial⟩).1
    (by decide) _ (by decide)

/-- 171 descriptors, each asked about for input and output, are 342 requests.  The process
sleeps, it is not on the wait queue of the last of them, and output that becomes possible there
does not wake it. -/
theorem fullTable_missed :
    let reqs := requests 171 fun kind _ => kind ≠ .selEx
    let s := run ownQueues reqs (start ownQueues reqs fun _ => false)
      (List.replicate 1369 (.step true))
    s.pc = .schedule ∧ s.running = false ∧ (170, .selOut) ∈ reqs ∧
      s.ready (170, .selOut) = false ∧ s.entries (170, .selOut) = 0 ∧
        (next ownQueues reqs s (.ready (170, .selOut))).running = false := by
  decide +kernel

end LinuxKernel.Select
