import LinuxKernel.BlockRequestDrivers
import LinuxKernel.BlockRequestFrame

/-!
# Runs of the request queues

What holds of the queues in every state that a run reaches, as long as `end_request` finds
the next sector after an error.  No step of a process touches the request that an IDE driver
is at work on.
-/

namespace LinuxKernel.BlockRequest

open LinkChain

variable {k : Setup} {s s' : Queues} {g : Ghost} {p b i m : ℕ} {c : Call} {rw : Rw}

def Queues.InUse (s : Queues) (i : ℕ) : Prop := (s.reqs i).dev ≠ none

/-- Every request in use describes the chain of its buffers, every locked buffer is in exactly
one request or with exactly one process that looks for one, and no entry is on two queues. -/
structure QueuesOk (k : Setup) (s : Queues) (chain : ℕ → List ℕ) : Prop where
  request : ∀ i, s.InUse i → RequestOk k s.bufs (s.reqs i) (chain i)
  locked : ∀ i, s.InUse i → ∀ b ∈ chain i, (s.bufs b).lock = true
  one : ∀ b, (s.bufs b).lock = true →
    (∃! i, s.InUse i ∧ b ∈ chain i) ∧ (∀ p, (s.procs p).holds ≠ some b) ∨
      (∃! p, (s.procs p).holds = some b) ∧ ∀ i, s.InUse i → b ∉ chain i
  queued : ∀ m i, .req i ∈ s.queue m → s.InUse i
  once : ∀ m, (s.queue m).Nodup
  oneQueue : ∀ m m' i, .req i ∈ s.queue m → .req i ∈ s.queue m' → m = m'

theorem Inv.queuesOk (h : Inv k s g) : QueuesOk k s g.chain := by
  refine ⟨?_, ?_, ?_, ?_, h.nodup, ?_⟩
  · intro i hi
    exact h.request i ((h.active i).1 hi)
  · intro i hi b hb
    rw [h.member i b ((h.active i).1 hi)] at hb
    rw [h.lock, hb]
    simp
  · intro b hb
    have howner := (h.lock b).1 hb
    cases hown : g.owner b with
    | free => exact absurd hown howner
    | entry i =>
      have hplace := h.inUse b i hown
      left
      refine ⟨⟨i, ⟨(h.active i).2 hplace, (h.member i b hplace).2 hown⟩, ?_⟩, ?_⟩
      · rintro j ⟨hj, hmem⟩
        rw [h.member j b ((h.active j).1 hj), hown] at hmem
        exact (Owner.entry.inj hmem).symm
      · intro p hp
        rw [h.holds, hown] at hp
        cases hp
    | proc p =>
      right
      refine ⟨⟨p, (h.holds p b).2 hown, ?_⟩, ?_⟩
      · intro p' hp'
        rw [h.holds, hown] at hp'
        exact (Owner.proc.inj hp').symm
      · intro i hi hmem
        rw [h.member i b ((h.active i).1 hi), hown] at hmem
        cases hmem
  · intro m i hmem
    rw [Queues.InUse, h.active, (h.queue m i).1 hmem]
    simp
  · intro m m' i hm hm'
    rw [h.queue] at hm hm'
    rw [hm] at hm'
    exact Place.queue.inj hm'

/-- Where the head of the queue has more buffers, an error comes in the last two sectors of a
block. -/
def Queues.HeadOk (s : Queues) (k : Setup) (uptodate : Bool) (done : ℕ) : List Node → Prop
  | .req i :: _ =>
    (s.bufs (s.reqs i).buffer).reqnext ≠ none → uptodate = false → ErrorOk k (s.reqs i) done
  | _ => True

instance (k : Setup) (s : Queues) (uptodate : Bool) (done : ℕ) :
    (q : List Node) → Decidable (s.HeadOk k uptodate done q)
  | [] | .plug _ _ _ :: _ => .isTrue trivial
  | .req i :: _ =>
    inferInstanceAs (Decidable ((s.bufs (s.reqs i).buffer).reqnext ≠ none → uptodate = false →
      ErrorOk k (s.reqs i) done))

def StepOk (k : Setup) (s : Queues) : Event → Prop
  | .endRequest m uptodate done => scsiMajor m = false → s.HeadOk k uptodate done (s.queue m)
  | _ => True

instance (k : Setup) (s : Queues) : (e : Event) → Decidable (StepOk k s e)
  | .endRequest m uptodate done =>
    inferInstanceAs (Decidable (scsiMajor m = false → s.HeadOk k uptodate done (s.queue m)))
  | .llRwBlock _ _ _ _ _ | .resume _ | .scsiTake _ _ | .scsiEnd _ _ | .touch _ _ _ =>
    .isTrue trivial

variable {e : Event}

theorem Inv.next (h : Inv k s g) (he : StepOk k s e) : ∃ g', Inv k (step k s e) g' := by
  cases e with
  | llRwBlock p rw bhs cmd sector =>
    dsimp only [step]
    split
    · rename_i hproc
      exact h.llRwBlock hproc rw bhs cmd sector
    · exact ⟨g, h⟩
  | resume p => exact h.resume p
  | endRequest m uptodate done =>
    dsimp only [step]
    split
    · exact ⟨g, h⟩
    · rename_i hmajor
      cases hq : s.queue m with
      | nil =>
        refine ⟨g, ?_⟩
        unfold Queues.endRequest
        rw [hq]
        exact h
      | cons node rest =>
        cases node with
        | plug owner cmd sector =>
          refine ⟨g, ?_⟩
          unfold Queues.endRequest
          rw [hq]
          exact h
        | req i =>
          dsimp only [StepOk] at he
          rw [hq] at he
          have hi : g.place i ≠ .free := by simp [(h.head_req hq).1]
          refine h.endRequest hq fun hmore => (h.request i hi).advanceOk ?_
          exact he (by simpa using hmajor) hmore
  | scsiTake m command =>
    dsimp only [step]
    split
    · rename_i hok
      cases hq : s.queue m with
      | nil =>
        refine ⟨g, ?_⟩
        unfold Queues.scsiTake
        rw [hq]
        exact h
      | cons node rest =>
        cases node with
        | plug owner cmd sector =>
          refine ⟨g, ?_⟩
          unfold Queues.scsiTake
          rw [hq]
          exact h
        | req i => exact h.scsiTake hq hok.2.1 hok.2.2
    · exact ⟨g, h⟩
  | scsiEnd command uptodate =>
    dsimp only [step]
    split
    · rename_i hok
      exact h.scsiEnd hok.1 hok.2 uptodate
    · exact ⟨g, h⟩
  | touch b dirt uptodate => exact ⟨g, h.setFlags
      (f := fun buf => { buf with dirt := dirt, uptodate := uptodate }) fun _ => ⟨rfl, rfl, rfl⟩⟩

/-! ## What a step leaves alone -/

def Event.ofProcess : Event → Bool
  | .llRwBlock _ _ _ _ _ | .resume _ => true
  | _ => false

def Queues.Completes (s : Queues) (b : ℕ) : Event → Prop
  | .endRequest m _ _ => ∃ i rest, s.queue m = .req i :: rest ∧ (s.reqs i).bh = some b
  | .scsiEnd command _ => (s.reqs command).bh = some b
  | _ => False

/-- A buffer stays in a request until it is completed, and a process does not touch the
request that an IDE driver is at work on. -/
structure StepKeeps (k : Setup) (s : Queues) (e : Event) (chain chain' : ℕ → List ℕ) : Prop where
  stays : ∀ b i, s.InUse i → b ∈ chain i → ¬s.Completes b e →
    ∃! j, (step k s e).InUse j ∧ b ∈ chain' j
  head : e.ofProcess = true → ∀ i rest, s.queue HD_MAJOR = .req i :: rest →
    (∃ rest', (step k s e).queue HD_MAJOR = .req i :: rest') ∧
      (step k s e).reqs i = s.reqs i ∧ RequestOk k (step k s e).bufs ((step k s e).reqs i) (chain i)

theorem Inv.frame_step (h : Inv k s g) (he : e.ofProcess = true) : Frame s (step k s e) g := by
  cases e with
  | llRwBlock p rw bhs cmd sector =>
    dsimp only [step]
    split
    · exact h.frame_llRwBlock rw bhs cmd sector
    · exact h.frame_refl
  | resume p => exact h.frame_resume p
  | endRequest m uptodate done => cases he
  | scsiTake m command => cases he
  | scsiEnd command uptodate => cases he
  | touch b dirt uptodate => cases he

theorem Inv.head_apart (h : Inv k s g) {rest : List Node}
    (hq : s.queue HD_MAJOR = .req i :: rest) : s.Apart i := by
  intro m hm
  have hmem := mem_queue_of_mergeList hm
  obtain ⟨hplace, -, hnot⟩ := h.head_req hq
  rw [h.queue, hplace] at hmem
  obtain rfl := Place.queue.inj hmem
  unfold Queues.mergeList at hm
  rw [if_pos rfl, hq] at hm
  exact hnot hm

theorem endFirst_bufs_of_ne (uptodate advanced : Bool) (done : ℕ)
    (hb : (s.reqs i).bh ≠ some b) :
    (s.endFirst k i uptodate advanced done).bufs b = s.bufs b := by
  cases hbh : (s.reqs i).bh with
  | none =>
    unfold Queues.endFirst Queues.endBuffer
    rw [setReq_self, advance_bh, hbh]
    rfl
  | some d =>
    rw [endFirst_bufs k uptodate advanced done hbh, Function.update_of_ne]
    rintro rfl
    exact hb hbh

variable {uptodate : Bool}

theorem endRequest_bufs_of_ne {done : ℕ}
    (hb : ∀ i rest, s.queue m = .req i :: rest → (s.reqs i).bh ≠ some b) :
    (s.endRequest k m uptodate done).bufs b = s.bufs b := by
  unfold Queues.endRequest
  split
  · rename_i i rest hq
    have hend := endFirst_bufs_of_ne (k := k) uptodate uptodate done (hb i rest hq)
    dsimp only
    split
    · exact hend
    · exact hend
  · rfl

theorem endRequest_procs {done : ℕ} : (s.endRequest k m uptodate done).procs = s.procs := by
  unfold Queues.endRequest
  split
  · dsimp only
    split
    · exact endFirst_procs
    · exact endFirst_procs
  · rfl

theorem scsiEnd_bufs_of_ne (hb : (s.reqs i).bh ≠ some b) :
    (s.scsiEnd k i uptodate).bufs b = s.bufs b := by
  have hend := endFirst_bufs_of_ne (k := k) uptodate true 0 hb
  unfold Queues.scsiEnd
  dsimp only
  split
  · exact hend
  · exact hend

theorem scsiEnd_procs : (s.scsiEnd k i uptodate).procs = s.procs := by
  unfold Queues.scsiEnd
  dsimp only
  split
  · exact endFirst_procs
  · exact endFirst_procs

theorem scsiTake_bufs {command : ℕ} :
    (s.scsiTake m command).bufs = s.bufs ∧ (s.scsiTake m command).procs = s.procs := by
  unfold Queues.scsiTake
  split
  · exact ⟨rfl, rfl⟩
  · exact ⟨rfl, rfl⟩

theorem Inv.lock_step (h : Inv k s g) (hb : g.owner b = .entry i)
    (hnot : ¬s.Completes b e) :
    ((step k s e).bufs b).lock = true ∧ ∀ p, ((step k s e).procs p).holds ≠ some b := by
  have hlock : (s.bufs b).lock = true := by
    rw [h.lock, hb]
    simp
  have hholds : ∀ p, (s.procs p).holds ≠ some b := by
    intro p hp
    rw [h.holds, hb] at hp
    cases hp
  have hprocess : e.ofProcess = true →
      ((step k s e).bufs b).lock = true ∧ ∀ p, ((step k s e).procs p).holds ≠ some b := by
    intro he
    have hframe := h.frame_step he
    refine ⟨(hframe.lock b i hb).trans hlock, ?_⟩
    intro p hp
    exact hframe.holds p b hp i hb
  have hsame : (step k s e).bufs b = s.bufs b → (step k s e).procs = s.procs →
      ((step k s e).bufs b).lock = true ∧ ∀ p, ((step k s e).procs p).holds ≠ some b := by
    intro hbuf hprocs
    rw [hbuf, hprocs]
    exact ⟨hlock, hholds⟩
  cases e with
  | llRwBlock p rw bhs cmd sector => exact hprocess rfl
  | resume p => exact hprocess rfl
  | endRequest m uptodate done =>
    dsimp only [step] at hsame ⊢
    split at hsame
    · rw [if_pos ‹_›]
      exact hsame rfl rfl
    · rw [if_neg ‹_›]
      apply hsame
      · apply endRequest_bufs_of_ne
        intro i rest hq hbh
        exact hnot ⟨i, rest, hq, hbh⟩
      · exact endRequest_procs
  | scsiTake m command =>
    dsimp only [step] at hsame ⊢
    split at hsame
    · rw [if_pos ‹_›]
      exact hsame (congrFun scsiTake_bufs.1 b) scsiTake_bufs.2
    · rw [if_neg ‹_›]
      exact hsame rfl rfl
  | scsiEnd command uptodate =>
    dsimp only [step] at hsame ⊢
    split at hsame
    · rw [if_pos ‹_›]
      exact hsame (scsiEnd_bufs_of_ne hnot) scsiEnd_procs
    · rw [if_neg ‹_›]
      exact hsame rfl rfl
  | touch d dirt uptodate =>
    refine ⟨?_, hholds⟩
    dsimp only [step]
    by_cases hd : b = d
    · subst hd
      rw [setBuf_self]
      exact hlock
    · rw [setBuf_of_ne hd]
      exact hlock

theorem Inv.stepKeeps (h : Inv k s g) {g' : Ghost} (h' : Inv k (step k s e) g') :
    StepKeeps k s e g.chain g'.chain := by
  refine ⟨?_, ?_⟩
  · intro b i hi hb hnot
    have hown := (h.member i b ((h.active i).1 hi)).1 hb
    obtain ⟨hlock, hholds⟩ := h.lock_step hown hnot
    rcases h'.queuesOk.one b hlock with ⟨hone, -⟩ | ⟨⟨p, hp, -⟩, -⟩
    · exact hone
    · exact absurd hp (hholds p)
  · intro he i rest hq
    have hframe := h.frame_step he
    have hi : g.place i ≠ .free := by simp [(h.head_req hq).1]
    have happart := h.head_apart hq
    have hreq := hframe.req i hi happart
    refine ⟨hframe.head _ i rest hq, hreq, ?_⟩
    rw [hreq]
    apply (h.request i hi).congr
    intro b hb
    exact hframe.buf b i ((h.member i b hi).1 hb) happart

/-! ## Runs -/

def RunOk (k : Setup) (s : Queues) : List Event → Prop
  | [] => True
  | e :: es => StepOk k s e ∧ RunOk k (step k s e) es

instance RunOk.decide (k : Setup) (s : Queues) : (es : List Event) → Decidable (RunOk k s es)
  | [] => .isTrue trivial
  | e :: es =>
    have := RunOk.decide k (step k s e) es
    inferInstanceAs (Decidable (StepOk k s e ∧ RunOk k (step k s e) es))

def bootGhost : Ghost where
  chain := fun _ => []
  owner := fun _ => .free
  place := fun _ => .free

theorem boot_inv (k : Setup) : Inv k boot bootGhost := by
  refine ⟨?_, ?_, ?_, ?_, ?_, ?_, ?_, ?_, ?_, ?_, ?_, ?_, ?_⟩
  all_goals simp [boot, bootGhost, Proc.holds, Proc.adds, Proc.Ok, Proc.plug]

theorem Inv.reached (h : Inv k s g) {es : List Event} (hes : RunOk k s es) :
    ∃ g', Inv k (run k s es) g' := by
  induction es generalizing s g with
  | nil => exact ⟨g, h⟩
  | cons e es ih =>
    obtain ⟨g', h'⟩ := h.next hes.1
    exact ih h' hes.2

/-- In every state of a run in which errors come where `end_request` expects them, the queues
are in order, and stay so in a next step. -/
theorem run_queuesOk (k : Setup) {es : List Event} (hes : RunOk k boot es) :
    ∃ chain, QueuesOk k (run k boot es) chain ∧
      ∀ e, StepOk k (run k boot es) e → ∃ chain', QueuesOk k (step k (run k boot es) e) chain' ∧
        StepKeeps k (run k boot es) e chain chain' := by
  obtain ⟨g, h⟩ := (boot_inv k).reached hes
  refine ⟨g.chain, h.queuesOk, ?_⟩
  intro e he
  obtain ⟨g', h'⟩ := h.next he
  exact ⟨g'.chain, h'.queuesOk, h.stepKeeps h'⟩

def hardDisk (size : ℕ) : Setup where
  head := fun b => ⟨768, BitVec.ofNat 32 b, size⟩
  requestFn := fun _ => true
  blkSize := fun _ => none
  blksizeSize := fun _ => some fun _ => size
  isReadOnly := fun _ => false

def errorRun : List Event :=
  [.llRwBlock 1 .read [some 0, some 1, some 2] 0 0, .resume 1, .resume 1, .resume 1, .resume 1,
    .resume 1, .endRequest HD_MAJOR false 0]

theorem run_queuesOk_errorRun :
    (run (hardDisk 1024) boot errorRun).queue HD_MAJOR = [.req 63] ∧
      ∃ chain, QueuesOk (hardDisk 1024) (run (hardDisk 1024) boot errorRun) chain ∧
        ∀ e, StepOk (hardDisk 1024) (run (hardDisk 1024) boot errorRun) e →
          ∃ chain', QueuesOk (hardDisk 1024)
              (step (hardDisk 1024) (run (hardDisk 1024) boot errorRun) e) chain' ∧
            StepKeeps (hardDisk 1024) (run (hardDisk 1024) boot errorRun) e chain chain' :=
  ⟨by decide +kernel, run_queuesOk (hardDisk 1024) (by decide +kernel)⟩

/-- With blocks of 4096 bytes, the request that is left has the next buffer but the sector of
the one that failed. -/
theorem errorRun_wrong_sector :
    ¬∃ chain, QueuesOk (hardDisk 4096) (run (hardDisk 4096) boot errorRun) chain := by
  rintro ⟨chain, h⟩
  have huse : (run (hardDisk 4096) boot errorRun).InUse 63 := by
    unfold Queues.InUse
    decide +kernel
  have hreq := h.request 63 huse
  obtain ⟨rest, hchain, -, -⟩ := hreq.bh
  have hcovers := hreq.covers
  rw [hchain] at hcovers
  exact absurd hcovers.1 (by decide +kernel)

end LinuxKernel.BlockRequest
