import LinuxKernel.BufferSyncModel
import Mathlib.Tactic

/-!
# What a complete sync has written

A buffer that is dirty or being written stays where it is in the ring, unless
`put_last_free` moves it, and what lies between it and the place of `sync_buffers` only
gets less, unless the buffer that `sync_buffers` sleeps at is moved.  Twice the length of
the ring is then enough for a pass to come to it.
-/

namespace LinuxKernel.BufferSync
open Function List

/-! ## The way to a buffer -/

def Ahead (ring : List ℕ) (cur steps h : ℕ) : Prop :=
  ∃ a b c, ring = a ++ b ++ h :: c ∧ (b ++ [h]).head? = some cur ∧ b.length < steps

variable {ring : List ℕ} {cur steps h x : ℕ}

theorem Ahead.begin (hmem : h ∈ ring) : Ahead ring (ring.headD 0) (ring.length * 2) h := by
  obtain ⟨b, c, rfl⟩ := append_of_mem hmem
  refine ⟨[], b, c, rfl, ?_, ?_⟩
  · cases b with
    | nil => rfl
    | cons => rfl
  · rw [length_append, length_cons]
    omega

theorem Ahead.not_zero : ¬Ahead ring cur 0 h := by
  rintro ⟨-, b, -, -, -, hlength⟩
  exact Nat.not_lt_zero _ hlength

theorem Ahead.append (hahead : Ahead ring cur steps h) (l : List ℕ) :
    Ahead (ring ++ l) cur steps h := by
  obtain ⟨a, b, c, rfl, hhead, hlength⟩ := hahead
  exact ⟨a, b, c ++ l, by simp, hhead, hlength⟩

theorem Ahead.cons (hahead : Ahead ring cur steps h) (x : ℕ) : Ahead (x :: ring) cur steps h := by
  obtain ⟨a, b, c, rfl, hhead, hlength⟩ := hahead
  exact ⟨x :: a, b, c, by simp, hhead, hlength⟩

theorem Ahead.erase (hnodup : ring.Nodup) (hahead : Ahead ring cur steps h) (hx : h ≠ x)
    (hcur : cur ≠ x) : Ahead (ring.erase x) cur steps h := by
  obtain ⟨a, b, c, rfl, hhead, hlength⟩ := hahead
  rw [hnodup.erase_eq_filter, filter_append, filter_append, filter_cons_of_pos (by simpa using hx)]
  refine ⟨_, _, _, rfl, ?_, ?_⟩
  · cases b with
    | nil => exact hhead
    | cons y b =>
      rw [cons_append, List.head?_cons, Option.some.injEq] at hhead
      rw [filter_cons_of_pos (by simpa [hhead] using hcur), cons_append, List.head?_cons, hhead]
  · exact lt_of_le_of_lt (length_filter_le _ _) hlength

theorem nextFree_eq {a c : List ℕ} {next : ℕ} (hcur : cur ∉ a) :
    nextFree (a ++ cur :: next :: c) cur = next := by
  have hdrop : (a ++ cur :: next :: c).dropWhile (· ≠ cur) = cur :: next :: c := by
    rw [dropWhile_append_of_pos]
    · exact dropWhile_cons_of_neg (by simp)
    · intro y hy
      have hne : y ≠ cur := fun heq => hcur (heq ▸ hy)
      simpa using hne
  unfold nextFree
  rw [hdrop]

theorem Ahead.next (hnodup : ring.Nodup) (hahead : Ahead ring cur steps h) (hne : h ≠ cur) :
    Ahead ring (nextFree ring cur) (steps - 1) h := by
  obtain ⟨a, b, c, rfl, hhead, hlength⟩ := hahead
  cases b with
  | nil =>
    rw [nil_append, List.head?_cons, Option.some.injEq] at hhead
    exact absurd hhead hne
  | cons y b =>
    rw [cons_append, List.head?_cons, Option.some.injEq] at hhead
    subst hhead
    have hnotin : y ∉ a := by
      intro hmem
      rw [append_assoc, nodup_append] at hnodup
      exact hnodup.2.2 y hmem y (by simp) rfl
    rw [length_cons] at hlength
    cases b with
    | nil =>
      refine ⟨a ++ [y], [], c, by simp, ?_, by rw [length_nil]; omega⟩
      simp only [append_assoc, cons_append, nil_append, nextFree_eq hnotin, List.head?_cons]
    | cons z b =>
      refine ⟨a ++ [y], z :: b, c, by simp, ?_, by omega⟩
      simp only [append_assoc, cons_append, nextFree_eq hnotin, List.head?_cons]

/-! ## The invariant -/

def Of (dev : ℕ) (b : Buffer) : Prop := dev = 0 ∨ b.dev = dev

def Written (b : Buffer) : Prop := b.dirt = false ∧ b.lock ≠ some .write

variable {b : Buffer}

theorem Written.of_unlocked (hdirt : b.dirt = false) (hlock : b.lock = none) : Written b := by
  refine ⟨hdirt, ?_⟩
  rw [hlock]
  decide

def State.Status (s : State) (h : ℕ) : Prop :=
  Written (s.buf h) ∨ Ahead s.ring s.cur s.steps h ∨
    (s.retry = true ∧ (s.pass = 0 ∨ s.pass = 1 ∧ (s.buf h).dirt = false))

structure State.Inv (dev : ℕ) (s : State) : Prop where
  nodup : s.ring.Nodup
  pass_le : s.pass ≤ 2
  status : s.phase ≠ .returned → ∀ h ∈ s.ring, Of dev (s.buf h) → s.Status h
  clean : s.pass = 2 → ∀ h ∈ s.ring, Of dev (s.buf h) → (s.buf h).dirt = false
  writing : s.phase = .writing → s.pass < 2
  written : s.phase = .returned → ∀ h ∈ s.ring, Of dev (s.buf h) → Written (s.buf h)

variable {dev : ℕ} {s : State}

theorem inv_beginPass (hnodup : s.ring.Nodup) {pass : ℕ} (hpass : pass ≤ 2)
    (hclean : pass = 2 → ∀ h ∈ s.ring, Of dev (s.buf h) → (s.buf h).dirt = false) :
    (s.beginPass pass).Inv dev where
  nodup := hnodup
  pass_le := hpass
  status _ h hmem _ := .inr (.inl (Ahead.begin hmem))
  clean := hclean
  writing hphase := absurd hphase (by simp [State.beginPass])
  written hphase := absurd hphase (by simp [State.beginPass])

theorem State.Inv.endPass (h : s.Inv dev) (hphase : s.phase = .scan)
    (hsteps : s.steps = 0) : (s.endPass true).Inv dev := by
  have hstatus : ∀ x ∈ s.ring, Of dev (s.buf x) → Written (s.buf x) ∨
      (s.retry = true ∧ (s.pass = 0 ∨ s.pass = 1 ∧ (s.buf x).dirt = false)) := by
    intro x hx hof
    rcases h.status (by simp [hphase]) x hx hof with hwritten | hahead | hretry
    · exact .inl hwritten
    · rw [hsteps] at hahead
      exact absurd hahead Ahead.not_zero
    · exact .inr hretry
  unfold State.endPass
  split
  · rename_i hagain
    refine inv_beginPass h.nodup hagain.2.2 fun hpass x hx hof => ?_
    rcases hstatus x hx hof with hwritten | ⟨-, hzero | ⟨-, hdirt⟩⟩
    · exact hwritten.1
    · omega
    · exact hdirt
  · rename_i hlast
    refine ⟨h.nodup, h.pass_le, fun hne => absurd rfl hne, h.clean,
      fun hwriting => absurd hwriting (by simp), fun _ x hx hof => ?_⟩
    rcases hstatus x hx hof with hwritten | ⟨hretry, hpass⟩
    · exact hwritten
    · refine absurd ⟨rfl, hretry, ?_⟩ hlast
      rcases hpass with hzero | ⟨hone, -⟩
      · omega
      · omega

variable {s' : State}

theorem State.Inv.next (h : s.Inv dev) (hphase : s.phase ≠ .returned)
    (hring : s'.ring = s.ring) (hpass : s'.pass = s.pass) (hcur : s'.cur = s.cur)
    (hsteps : s'.steps = s.steps) (hretry : s.retry = true → s'.retry = true)
    (hother : ∀ x, x ≠ s.cur → s'.buf x = s.buf x)
    (hvisited : s.cur ∈ s.ring → Of dev (s'.buf s.cur) →
      (Written (s'.buf s.cur) ∨
        (s'.retry = true ∧ (s.pass = 0 ∨ s.pass = 1 ∧ (s'.buf s.cur).dirt = false))) ∧
      (s.pass = 2 → (s'.buf s.cur).dirt = false)) : s'.next.Inv dev where
  nodup := by
    change s'.ring.Nodup
    rw [hring]
    exact h.nodup
  pass_le := by
    change s'.pass ≤ 2
    rw [hpass]
    exact h.pass_le
  status _ x hx hof := by
    change x ∈ s'.ring at hx
    change Of dev (s'.buf x) at hof
    rw [hring] at hx
    unfold State.Status State.next
    rw [hring, hcur, hsteps, hpass]
    by_cases hxcur : x = s.cur
    · rw [hxcur] at hx hof ⊢
      rcases (hvisited hx hof).1 with hwritten | hretry
      · exact .inl hwritten
      · exact .inr (.inr hretry)
    · rw [hother x hxcur] at hof ⊢
      rcases h.status hphase x hx hof with hwritten | hahead | ⟨hr, hp⟩
      · exact .inl hwritten
      · exact .inr (.inl (hahead.next h.nodup hxcur))
      · exact .inr (.inr ⟨hretry hr, hp⟩)
  clean hpass' x hx hof := by
    change s'.pass = 2 at hpass'
    change x ∈ s'.ring at hx
    change Of dev (s'.buf x) at hof
    change (s'.buf x).dirt = false
    rw [hpass] at hpass'
    rw [hring] at hx
    by_cases hxcur : x = s.cur
    · rw [hxcur] at hx hof ⊢
      exact (hvisited hx hof).2 hpass'
    · rw [hother x hxcur] at hof ⊢
      exact h.clean hpass' x hx hof
  writing hwriting := absurd hwriting (by simp [State.next])
  written hreturned := absurd hreturned (by simp [State.next])

theorem setBuf_self (s : State) (x : ℕ) (b : Buffer) : (s.setBuf x b).buf x = b := update_self ..

theorem setBuf_of_ne (s : State) {x y : ℕ} (hne : y ≠ x) (b : Buffer) :
    (s.setBuf x b).buf y = s.buf y :=
  update_of_ne hne ..

theorem State.Inv.setBuf (h : s.Inv dev) {x : ℕ}
    (hdev : b.dev = (s.buf x).dev) (hwritten : Written (s.buf x) → Written b)
    (hdirt : (s.buf x).dirt = false → b.dirt = false) : (s.setBuf x b).Inv dev := by
  have hof : ∀ y, Of dev ((s.setBuf x b).buf y) → Of dev (s.buf y) := by
    intro y hof
    by_cases hy : y = x
    · rw [hy, setBuf_self] at hof
      rw [hy]
      unfold Of at hof ⊢
      rw [← hdev]
      exact hof
    · rw [setBuf_of_ne s hy] at hof
      exact hof
  have hwritten' : ∀ y, Written (s.buf y) → Written ((s.setBuf x b).buf y) := by
    intro y hy
    by_cases hyx : y = x
    · rw [hyx] at hy ⊢
      rw [setBuf_self]
      exact hwritten hy
    · rw [setBuf_of_ne s hyx]
      exact hy
  have hdirt' : ∀ y, (s.buf y).dirt = false → ((s.setBuf x b).buf y).dirt = false := by
    intro y hy
    by_cases hyx : y = x
    · rw [hyx] at hy ⊢
      rw [setBuf_self]
      exact hdirt hy
    · rw [setBuf_of_ne s hyx]
      exact hy
  refine ⟨h.nodup, h.pass_le, fun hphase y hy hofy => ?_, fun hpass y hy hofy => ?_, h.writing,
    fun hphase y hy hofy => ?_⟩
  · rcases h.status hphase y hy (hof y hofy) with hw | hahead | ⟨hretry, hzero | ⟨hone, hd⟩⟩
    · exact .inl (hwritten' y hw)
    · exact .inr (.inl hahead)
    · exact .inr (.inr ⟨hretry, .inl hzero⟩)
    · exact .inr (.inr ⟨hretry, .inr ⟨hone, hdirt' y hd⟩⟩)
  · exact hdirt' y (h.clean hpass y hy (hof y hofy))
  · exact hwritten' y (h.written hphase y hy (hof y hofy))

theorem State.Inv.setRing (h : s.Inv dev) (hasleep : s.phase ≠ .returned)
    {buf' : ℕ → Buffer} {ring' : List ℕ} (hnodup : ring'.Nodup)
    (hmem : ∀ y ∈ ring', Of dev (buf' y) → Written (buf' y) ∨ (y ∈ s.ring ∧ buf' y = s.buf y))
    (hahead : ∀ y ∈ s.ring, Of dev (s.buf y) → ¬Written (s.buf y) →
      Ahead s.ring s.cur s.steps y → Ahead ring' s.cur s.steps y) :
    State.Inv dev { s with buf := buf', ring := ring' } := by
  refine ⟨hnodup, h.pass_le, fun _ y hy hof => ?_, fun hpass y hy hof => ?_, h.writing,
    fun hphase => absurd hphase hasleep⟩
  · rcases hmem y hy hof with hw | ⟨hy, hsame⟩
    · exact .inl hw
    · unfold State.Status
      dsimp only at hof ⊢
      rw [hsame] at hof ⊢
      by_cases hw : Written (s.buf y)
      · exact .inl hw
      · rcases h.status hasleep y hy hof with hw' | hay | hretry
        · exact absurd hw' hw
        · exact .inr (.inl (hahead y hy hof hw hay))
        · exact .inr (.inr hretry)
  · rcases hmem y hy hof with hw | ⟨hy, hsame⟩
    · exact hw.1
    · dsimp only at hof ⊢
      rw [hsame] at hof ⊢
      exact h.clean hpass y hy hof

theorem State.Inv.unlocked (h : s.Inv dev) (hphase : s.phase ≠ .returned)
    (hlock : (s.buf s.cur).lock = none) (refused : Bool) : (s.unlocked true refused).Inv dev := by
  unfold State.unlocked
  dsimp only
  split
  · rename_i herror
    refine h.next hphase rfl rfl rfl rfl id (fun _ _ => rfl) fun _ _ => ?_
    have hdirt : (s.buf s.cur).dirt = false := by simpa using herror.2.2.2.1
    exact ⟨.inl (Written.of_unlocked hdirt hlock), fun _ => hdirt⟩
  · split
    · rename_i hskip
      refine h.next hphase rfl rfl rfl rfl id (fun _ _ => rfl) fun hmem hof => ?_
      have hdirt : (s.buf s.cur).dirt = false := by
        rcases hskip with hdirt | hpass
        · simpa using hdirt
        · have hle := h.pass_le
          exact h.clean (by omega) s.cur hmem hof
      exact ⟨.inl (Written.of_unlocked hdirt hlock), fun _ => hdirt⟩
    · rename_i hskip
      rw [not_or, not_not] at hskip
      split
      · refine h.next hphase rfl rfl rfl rfl (fun _ => rfl)
          (fun x hx => setBuf_of_ne s hx _) fun _ _ => ?_
        rw [setBuf_self]
        exact ⟨.inl (Written.of_unlocked rfl hlock), fun _ => rfl⟩
      · -- the buffer is locked for the write, and `sync_buffers` stays at it
        have hset := h.setBuf (x := s.cur)
          (b := { s.buf s.cur with req := true, lock := some .write }) rfl
          (fun hw => absurd hw.1 (by simp [hskip.1])) id
        exact ⟨hset.nodup, hset.pass_le, fun _ => hset.status hphase, hset.clean,
          fun _ => Nat.lt_of_not_le hskip.2, fun hreturned => absurd hreturned (by simp)⟩

variable {refused : Bool}

theorem State.Inv.sync (h : s.Inv dev)
    (hs : s.sync true dev refused = some s') : s'.Inv dev := by
  unfold State.sync at hs
  cases hphase : s.phase with
  | scan =>
    have hactive : s.phase ≠ .returned := by simp [hphase]
    rw [hphase] at hs
    dsimp only at hs
    split at hs
    · rename_i hsteps
      rw [Option.some.injEq] at hs
      rw [← hs]
      exact h.endPass hphase hsteps
    · split at hs
      · rename_i hother
        rw [Option.some.injEq] at hs
        rw [← hs]
        refine h.next hactive rfl rfl rfl rfl id (fun _ _ => rfl) fun _ hof => ?_
        exact absurd hof (by unfold Of; tauto)
      · split at hs
        · split at hs
          · rename_i hpass
            rw [Option.some.injEq] at hs
            rw [← hs]
            have hzero : s.pass = 0 := by simpa using hpass
            refine h.next hactive rfl rfl rfl rfl (fun _ => rfl) (fun _ _ => rfl) fun _ _ => ?_
            exact ⟨.inr ⟨rfl, .inl hzero⟩, fun htwo => by omega⟩
          · rw [Option.some.injEq] at hs
            rw [← hs]
            exact ⟨h.nodup, h.pass_le, fun _ => h.status hactive, h.clean,
              fun hwriting => absurd hwriting (by simp),
              fun hreturned => absurd hreturned (by simp)⟩
        · rename_i hlock
          rw [Option.some.injEq] at hs
          rw [← hs]
          exact h.unlocked hactive (by simpa using hlock) refused
  | waiting =>
    rw [hphase] at hs
    dsimp only at hs
    split at hs
    · contradiction
    · rename_i hlock
      rw [Option.some.injEq] at hs
      rw [← hs]
      exact h.unlocked (by simp [hphase]) (by simpa using hlock) refused
  | writing =>
    have hpass := h.writing hphase
    rw [hphase] at hs
    rw [Option.some.injEq] at hs
    rw [← hs]
    refine h.next (by simp [hphase]) rfl rfl rfl rfl (fun _ => rfl)
      (fun x hx => setBuf_of_ne s hx _) fun _ _ => ?_
    rw [setBuf_self]
    have hearly : s.pass = 0 ∨ s.pass = 1 := by omega
    exact ⟨.inr ⟨rfl, hearly.imp id fun hone => ⟨hone, rfl⟩⟩, fun _ => rfl⟩
  | returned =>
    rw [hphase] at hs
    contradiction

/-- The step moves the buffer that `sync_buffers` sleeps at, or one that is still dirty or
being written. -/
def State.Disturbs (s : State) (dev : ℕ) : Event → Prop
  | .putLast h => h = s.cur ∨ (Of dev (s.buf h) ∧ ¬Written (s.buf h))
  | _ => False

def State.Calm (s : State) (wait : Bool) (dev : ℕ) : List Event → Prop
  | [] => True
  | e :: events => ¬s.Disturbs dev e ∧ ∀ s', s.step wait dev e = some s' → s'.Calm wait dev events

theorem not_returned_of_asleep (h : s.asleep = true) : s.phase ≠ .returned := by
  intro hphase
  rw [State.asleep, hphase] at h
  contradiction

theorem State.idle_spec {x : ℕ} (hidle : s.idle x = true) (hasleep : s.asleep = true) :
    Written (s.buf x) ∧ s.cur ≠ x := by
  unfold State.idle State.holds at hidle
  rw [hasleep] at hidle
  simp only [Bool.and_eq_true, decide_eq_true_eq, Bool.not_eq_true', Bool.true_and,
    decide_eq_false_iff_not] at hidle
  exact ⟨Written.of_unlocked hidle.1.2 hidle.1.1, hidle.2⟩

theorem nodup_erase_append {x : ℕ} (hnodup : ring.Nodup) : (ring.erase x ++ [x]).Nodup := by
  rw [nodup_append]
  refine ⟨hnodup.erase x, nodup_singleton x, fun y hy z hz heq => ?_⟩
  rw [mem_singleton] at hz
  rw [heq, hz] at hy
  exact hnodup.not_mem_erase hy

variable {e : Event}

theorem State.Inv.step (h : s.Inv dev)
    (hs : s.step true dev e = some s') (hcalm : ¬s.Disturbs dev e) : s'.Inv dev := by
  have hunmoved : ∀ x y, y ∈ s.ring.erase x → y ∈ s.ring ∧ y ≠ x := by
    intro x y hy
    have hiff := h.nodup.mem_erase_iff.mp hy
    exact ⟨hiff.2, hiff.1⟩
  cases e with
  | sync refused => exact h.sync hs
  | ioEnd x ok =>
    simp only [State.step, Option.ite_none_right_eq_some, Option.some.injEq] at hs
    obtain ⟨hguard, rfl⟩ := hs
    exact h.setBuf rfl (fun hw => Written.of_unlocked hw.1 rfl) id
  | start x rw_ =>
    simp only [State.step, Option.ite_none_right_eq_some, Option.some.injEq] at hs
    obtain ⟨hguard, rfl⟩ := hs
    refine h.setBuf rfl (fun hw => ⟨hw.1, ?_⟩) id
    intro hlock
    rw [Option.some.injEq] at hlock
    have hdirt := hguard.2.2
    rw [if_pos hlock, hw.1] at hdirt
    contradiction
  | queued x =>
    simp only [State.step, Option.ite_none_right_eq_some, Option.some.injEq] at hs
    obtain ⟨hguard, rfl⟩ := hs
    exact h.setBuf rfl (fun hw => ⟨rfl, hw.2⟩) fun _ => rfl
  | refused x =>
    simp only [State.step, Option.ite_none_right_eq_some, Option.some.injEq] at hs
    obtain ⟨hguard, rfl⟩ := hs
    exact h.setBuf rfl (fun hw => ⟨rfl, hw.2⟩) fun _ => rfl
  | putLast x =>
    simp only [State.step, Option.ite_none_right_eq_some, Option.some.injEq] at hs
    obtain ⟨hguard, rfl⟩ := hs
    unfold State.Disturbs at hcalm
    rw [not_or] at hcalm
    refine h.setRing (not_returned_of_asleep hguard.1) (nodup_erase_append h.nodup) ?_ ?_
    · intro y hy _
      rcases mem_append.mp hy with hy | hy
      · exact .inr ⟨(hunmoved x y hy).1, rfl⟩
      · rw [mem_singleton] at hy
        rw [hy]
        exact .inr ⟨hguard.2, rfl⟩
    · intro y _ hof hnot hahead
      have hne : y ≠ x := by
        rintro rfl
        exact hcalm.2 ⟨hof, hnot⟩
      exact (hahead.erase h.nodup hne (Ne.symm hcalm.1)).append _
  | take x dev' =>
    simp only [State.step, Option.ite_none_right_eq_some, Option.some.injEq] at hs
    obtain ⟨hguard, rfl⟩ := hs
    obtain ⟨hwritten, hcur⟩ := State.idle_spec hguard.2.2 hguard.1
    refine h.setRing (not_returned_of_asleep hguard.1) (nodup_erase_append h.nodup) ?_ ?_
    · intro y hy _
      rcases mem_append.mp hy with hy | hy
      · exact .inr ⟨(hunmoved x y hy).1, setBuf_of_ne s (hunmoved x y hy).2 _⟩
      · rw [mem_singleton] at hy
        rw [hy, setBuf_self]
        exact .inl (Written.of_unlocked rfl rfl)
    · intro y _ _ hnot hahead
      have hne : y ≠ x := by
        rintro rfl
        exact hnot hwritten
      exact (hahead.erase h.nodup hne hcur).append _
  | grow x dev' front =>
    simp only [State.step, Option.ite_none_right_eq_some, Option.some.injEq] at hs
    obtain ⟨hguard, rfl⟩ := hs
    have hmem : ∀ y, y = x ∨ y ∈ s.ring →
        Written ((s.setBuf x ⟨dev', none, false, false, false⟩).buf y) ∨
          (y ∈ s.ring ∧ (s.setBuf x ⟨dev', none, false, false, false⟩).buf y = s.buf y) := by
      intro y hy
      by_cases hyx : y = x
      · rw [hyx, setBuf_self]
        exact .inl (Written.of_unlocked rfl rfl)
      · exact .inr ⟨hy.resolve_left hyx, setBuf_of_ne s hyx _⟩
    refine h.setRing (not_returned_of_asleep hguard.1) ?_ ?_ ?_
    · split
      · exact nodup_cons.mpr ⟨hguard.2.1, h.nodup⟩
      · exact (nodup_append_comm.mp (nodup_cons.mpr ⟨hguard.2.1, h.nodup⟩))
    · intro y hy _
      apply hmem y
      split at hy
      · exact mem_cons.mp hy
      · exact (mem_append.mp hy).symm.imp mem_singleton.mp id
    · intro y _ _ _ hahead
      split
      · exact hahead.cons x
      · exact hahead.append _
  | free x =>
    simp only [State.step, Option.ite_none_right_eq_some, Option.some.injEq] at hs
    obtain ⟨hguard, rfl⟩ := hs
    obtain ⟨hwritten, hcur⟩ := State.idle_spec hguard.2.2 hguard.1
    refine h.setRing (not_returned_of_asleep hguard.1) (h.nodup.erase x) ?_ ?_
    · intro y hy _
      exact .inr ⟨(hunmoved x y hy).1, rfl⟩
    · intro y _ _ hnot hahead
      have hne : y ≠ x := by
        rintro rfl
        exact hnot hwritten
      exact hahead.erase h.nodup hne hcur

variable {events : List Event}

theorem State.Inv.run (h : s.Inv dev)
    (hs : s.run true dev events = some s') (hcalm : s.Calm true dev events) : s'.Inv dev := by
  induction events generalizing s with
  | nil =>
    rw [State.run, Option.some.injEq] at hs
    rw [← hs]
    exact h
  | cons e events ih =>
    obtain ⟨s1, hs1, hrest⟩ := Option.bind_eq_some_iff.mp hs
    exact ih (h.step hs1 hcalm.1) hrest (hcalm.2 s1 hs1)

/-! ## Errors -/

/-- `b_req` is set for what is locked, and for what `sync_buffers` has found locked. -/
structure State.Requested (s : State) : Prop where
  locked : ∀ x, (s.buf x).lock.isSome → (s.buf x).req = true
  waiting : s.phase = .waiting → (s.buf s.cur).req = true

theorem State.Requested.next (h : s.Requested) : s.next.Requested :=
  ⟨h.locked, fun hphase => absurd hphase (by simp [State.next])⟩

theorem State.Requested.setBuf (h : s.Requested) {x : ℕ}
    (hlocked : b.lock.isSome → b.req = true)
    (hwaiting : s.phase = .waiting → s.cur = x → b.req = true) : (s.setBuf x b).Requested := by
  constructor
  · intro y hlock
    by_cases hyx : y = x
    · rw [hyx, setBuf_self] at hlock ⊢
      exact hlocked hlock
    · rw [setBuf_of_ne s hyx] at hlock ⊢
      exact h.locked y hlock
  · intro hphase
    change ((s.setBuf x b).buf s.cur).req = true
    by_cases hcur : s.cur = x
    · rw [hcur, setBuf_self]
      exact hwaiting hphase hcur
    · rw [setBuf_of_ne s hcur]
      exact h.waiting hphase

theorem State.Requested.unlocked (h : s.Requested) (wait refused : Bool) :
    (s.unlocked wait refused).Requested := by
  have hset : ∀ (b : Buffer) (s' : State), (b.lock.isSome → b.req = true) →
      s'.buf = (s.setBuf s.cur b).buf → s'.phase ≠ .waiting → s'.Requested := by
    intro b s' hlocked hbuf hphase
    refine ⟨fun y hlock => ?_, fun hwaiting => absurd hwaiting hphase⟩
    rw [hbuf] at hlock ⊢
    by_cases hy : y = s.cur
    · rw [hy, setBuf_self] at hlock ⊢
      exact hlocked hlock
    · rw [setBuf_of_ne s hy] at hlock ⊢
      exact h.locked y hlock
  unfold State.unlocked
  dsimp only
  split
  · exact ⟨h.locked, fun hphase => absurd hphase (by simp [State.next])⟩
  · split
    · exact h.next
    · split
      · exact hset { s.buf s.cur with dirt := false, uptodate := false } _ (h.locked s.cur) rfl
          (by simp [State.next])
      · exact hset { s.buf s.cur with req := true, lock := some .write } _ (fun _ => rfl) rfl
          (by simp)

variable {wait : Bool}

theorem State.Requested.sync (h : s.Requested)
    (hs : s.sync wait dev refused = some s') : s'.Requested := by
  unfold State.sync at hs
  cases hphase : s.phase with
  | scan =>
    rw [hphase] at hs
    dsimp only at hs
    split at hs
    · rw [Option.some.injEq] at hs
      rw [← hs]
      unfold State.endPass
      split
      · exact ⟨h.locked, fun hwaiting => absurd hwaiting (by simp [State.beginPass])⟩
      · exact ⟨h.locked, fun hwaiting => absurd hwaiting (by simp)⟩
    · split at hs
      · rw [Option.some.injEq] at hs
        rw [← hs]
        exact h.next
      · split at hs
        · rename_i hlock
          split at hs
          · rw [Option.some.injEq] at hs
            rw [← hs]
            exact ⟨h.locked, fun hwaiting => absurd hwaiting (by simp [State.next])⟩
          · rw [Option.some.injEq] at hs
            rw [← hs]
            exact ⟨h.locked, fun _ => h.locked s.cur hlock⟩
        · rw [Option.some.injEq] at hs
          rw [← hs]
          exact h.unlocked wait refused
  | waiting =>
    rw [hphase] at hs
    dsimp only at hs
    split at hs
    · contradiction
    · rw [Option.some.injEq] at hs
      rw [← hs]
      exact h.unlocked wait refused
  | writing =>
    rw [hphase] at hs
    rw [Option.some.injEq] at hs
    rw [← hs]
    have hset := h.setBuf (x := s.cur) (b := { s.buf s.cur with dirt := false })
      (h.locked s.cur) fun hwaiting => absurd hwaiting (by simp [hphase])
    exact ⟨hset.locked, fun hwaiting => absurd hwaiting (by simp [State.next])⟩
  | returned =>
    rw [hphase] at hs
    contradiction

theorem State.Requested.step (h : s.Requested)
    (hs : s.step wait dev e = some s') : s'.Requested := by
  cases e with
  | sync refused => exact h.sync hs
  | ioEnd x ok =>
    simp only [State.step, Option.ite_none_right_eq_some, Option.some.injEq] at hs
    obtain ⟨-, rfl⟩ := hs
    exact h.setBuf (fun hlock => absurd hlock (by simp))
      fun hphase hcur => hcur ▸ h.waiting hphase
  | start x rw_ =>
    simp only [State.step, Option.ite_none_right_eq_some, Option.some.injEq] at hs
    obtain ⟨-, rfl⟩ := hs
    exact h.setBuf (fun _ => rfl) fun _ _ => rfl
  | queued x =>
    simp only [State.step, Option.ite_none_right_eq_some, Option.some.injEq] at hs
    obtain ⟨-, rfl⟩ := hs
    exact h.setBuf (h.locked x) fun hphase hcur => hcur ▸ h.waiting hphase
  | refused x =>
    simp only [State.step, Option.ite_none_right_eq_some, Option.some.injEq] at hs
    obtain ⟨-, rfl⟩ := hs
    exact h.setBuf (h.locked x) fun hphase hcur => hcur ▸ h.waiting hphase
  | putLast x =>
    simp only [State.step, Option.ite_none_right_eq_some, Option.some.injEq] at hs
    obtain ⟨-, rfl⟩ := hs
    exact ⟨h.locked, h.waiting⟩
  | take x dev' =>
    simp only [State.step, Option.ite_none_right_eq_some, Option.some.injEq] at hs
    obtain ⟨hguard, rfl⟩ := hs
    obtain ⟨-, hcur⟩ := State.idle_spec hguard.2.2 hguard.1
    have hset := h.setBuf (x := x) (b := ⟨dev', none, false, false, false⟩)
      (fun hlock => absurd hlock (by simp)) fun _ heq => absurd heq hcur
    exact ⟨hset.locked, hset.waiting⟩
  | grow x dev' front =>
    simp only [State.step, Option.ite_none_right_eq_some, Option.some.injEq] at hs
    obtain ⟨hguard, rfl⟩ := hs
    have hcur : s.cur ≠ x := by
      have hholds := hguard.2.2
      unfold State.holds at hholds
      rw [hguard.1] at hholds
      simpa using hholds
    have hset := h.setBuf (x := x) (b := ⟨dev', none, false, false, false⟩)
      (fun hlock => absurd hlock (by simp)) fun _ heq => absurd heq hcur
    exact ⟨hset.locked, hset.waiting⟩
  | free x =>
    simp only [State.step, Option.ite_none_right_eq_some, Option.some.injEq] at hs
    obtain ⟨-, rfl⟩ := hs
    exact ⟨h.locked, h.waiting⟩

theorem unlocked_err (h : s.err = true) : (s.unlocked wait refused).err = true := by
  unfold State.unlocked
  dsimp only
  split
  · rfl
  · split
    · exact h
    · split
      · exact h
      · exact h

theorem step_err (h : s.err = true)
    (hs : s.step wait dev e = some s') : s'.err = true := by
  cases e with
  | sync refused =>
    change s.sync wait dev refused = some s' at hs
    unfold State.sync at hs
    split at hs
    · split at hs
      · rw [Option.some.injEq] at hs
        rw [← hs]
        unfold State.endPass
        split
        · exact h
        · exact h
      · split at hs
        · rw [Option.some.injEq] at hs
          rw [← hs]
          exact h
        · split at hs
          · split at hs
            · rw [Option.some.injEq] at hs
              rw [← hs]
              exact h
            · rw [Option.some.injEq] at hs
              rw [← hs]
              exact h
          · rw [Option.some.injEq] at hs
            rw [← hs]
            exact unlocked_err h
    · split at hs
      · contradiction
      · rw [Option.some.injEq] at hs
        rw [← hs]
        exact unlocked_err h
    · rw [Option.some.injEq] at hs
      rw [← hs]
      exact h
    · contradiction
  | ioEnd | start | queued | refused | putLast | take | grow | free =>
    simp only [State.step, Option.ite_none_right_eq_some, Option.some.injEq] at hs
    obtain ⟨-, rfl⟩ := hs
    exact h

theorem run_err (h : s.err = true)
    (hs : s.run wait dev events = some s') : s'.err = true := by
  induction events generalizing s with
  | nil =>
    rw [State.run, Option.some.injEq] at hs
    rw [← hs]
    exact h
  | cons e events ih =>
    obtain ⟨s1, hs1, hrest⟩ := Option.bind_eq_some_iff.mp hs
    exact ih (step_err h hs1) hrest

theorem run_append (s : State) (wait : Bool) (dev : ℕ) (events events' : List Event) :
    s.run wait dev (events ++ events') =
      (s.run wait dev events).bind fun s' => s'.run wait dev events' := by
  induction events generalizing s with
  | nil => rfl
  | cons e events ih =>
    rw [cons_append, State.run, State.run, Option.bind_assoc]
    congr 1
    funext s'
    exact ih s'

theorem State.Requested.run (h : s.Requested) (hs : s.run wait dev events = some s') :
    s'.Requested := by
  induction events generalizing s with
  | nil =>
    rw [State.run, Option.some.injEq] at hs
    rw [← hs]
    exact h
  | cons e events ih =>
    obtain ⟨s1, hs1, hrest⟩ := Option.bind_eq_some_iff.mp hs
    exact ih (h.step hs1) hrest

theorem State.Requested.sync_err (h : s.Requested)
    (hphase : s.phase = .waiting) (hdirt : (s.buf s.cur).dirt = false)
    (huptodate : (s.buf s.cur).uptodate = false) (hs : s.sync true dev refused = some s') :
    s'.err = true := by
  have hreq := h.waiting hphase
  unfold State.sync at hs
  rw [hphase] at hs
  dsimp only at hs
  split at hs
  · contradiction
  · rename_i hlock
    have hnone : (s.buf s.cur).lock = none := by simpa using hlock
    rw [Option.some.injEq] at hs
    rw [← hs]
    unfold State.unlocked
    rw [if_pos ⟨rfl, hreq, hnone, by simp [hdirt], by simp [huptodate]⟩]
    rfl

/-- `sync_buffers` with `wait`: when it returns, what it was called for is neither dirty
nor being written, if nobody has moved a buffer that it slept at or had still to come to;
and it returns an error if it has found a buffer that it waited for not up to date. -/
theorem syncBuffers_complete (dev : ℕ) (buf : ℕ → Buffer) (ring : List ℕ) (hnodup : ring.Nodup)
    (hreq : ∀ h, (buf h).lock.isSome → (buf h).req = true) (events : List Event) (s : State)
    (hrun : (start buf ring).run true dev events = some s) (hreturned : s.phase = .returned) :
    ((start buf ring).Calm true dev events → ∀ h ∈ s.ring, Of dev (s.buf h) → Written (s.buf h)) ∧
    ∀ before refused after s1, events = before ++ .sync refused :: after →
      (start buf ring).run true dev before = some s1 → s1.phase = .waiting →
      (s1.buf s1.cur).dirt = false → (s1.buf s1.cur).uptodate = false → s.result ≠ 0 := by
  refine ⟨fun hcalm => ?_, ?_⟩
  · have hstart : (start buf ring).Inv dev :=
      inv_beginPass hnodup (Nat.zero_le 2) fun hpass => absurd hpass (by decide)
    exact (hstart.run hrun hcalm).written hreturned
  · intro before refused after s1 hevents hbefore hphase hdirt huptodate
    have hstart : (start buf ring).Requested :=
      ⟨hreq, fun hwaiting => absurd hwaiting (by simp [start, State.beginPass])⟩
    rw [hevents, run_append, hbefore, Option.bind_some] at hrun
    obtain ⟨s2, hs2, hafter⟩ := Option.bind_eq_some_iff.mp hrun
    have herr := run_err ((hstart.run hbefore).sync_err hphase hdirt huptodate hs2) hafter
    unfold State.result
    rw [herr]
    decide

def noBuffer : Buffer := ⟨0, none, false, true, false⟩

def oneDirty : ℕ → Buffer := update (fun _ => noBuffer) 4 ⟨1, none, true, true, false⟩

def oneWrite : List Event :=
  [.sync false, .sync false, .sync false, .sync false, .sync false, .ioEnd 4 true, .sync false,
    .sync false, .sync false]

theorem syncBuffers_complete_oneDirty :
    ∃ s, (start oneDirty [4]).run true 1 oneWrite = some s ∧ s.phase = .returned ∧
      ((start oneDirty [4]).Calm true 1 oneWrite →
        ∀ h ∈ s.ring, Of 1 (s.buf h) → Written (s.buf h)) ∧
      ∀ before refused after s1, oneWrite = before ++ .sync refused :: after →
        (start oneDirty [4]).run true 1 before = some s1 → s1.phase = .waiting →
        (s1.buf s1.cur).dirt = false → (s1.buf s1.cur).uptodate = false → s.result ≠ 0 := by
  have hmap : ((start oneDirty [4]).run true 1 oneWrite).map (fun s => s.phase) =
      some .returned := by decide +kernel
  obtain ⟨s, hrun, hreturned⟩ := Option.map_eq_some_iff.mp hmap
  refine ⟨s, hrun, hreturned, syncBuffers_complete 1 oneDirty [4] (by decide) (fun h hlock => ?_)
    oneWrite s hrun hreturned⟩
  unfold oneDirty at hlock
  by_cases h4 : h = 4
  · rw [h4, update_self] at hlock
    contradiction
  · rw [update_of_ne h4] at hlock
    contradiction

def oneRead : ℕ → Buffer := update (fun _ => noBuffer) 4 ⟨1, some .read, false, false, true⟩

def readBehind : List Event :=
  [.sync false, .sync false, .sync false, .sync false, .grow 5 1 false, .start 5 .read,
    .ioEnd 4 true, .sync false, .sync false, .take 4 1, .start 4 .read, .ioEnd 5 true, .sync false,
    .sync false]

def dirtyLast : ℕ → Buffer := fun h =>
  if h = 9 then ⟨1, none, true, true, false⟩
  else if h = 4 then ⟨1, some .read, false, false, true⟩
  else ⟨1, none, false, false, false⟩

def movedAway : List Event :=
  List.replicate 12 (.sync false) ++
    [.sync false, .sync false, .sync false, .sync false,
      .start 3 .read, .ioEnd 4 true, .putLast 4, .sync false,
      .sync false, .sync false, .sync false, .start 2 .read, .ioEnd 3 true, .putLast 3, .sync false,
      .sync false, .sync false, .start 1 .read, .ioEnd 2 true, .putLast 2, .sync false,
      .sync false, .ioEnd 1 true, .putLast 1, .sync false, .sync false]

/-- `sync_buffers` returns 0, and a buffer is being read; it returns 0, and what it has
begun to write is still being written. -/
theorem syncBuffers_locked :
    ((start oneRead [4]).run true 1 readBehind).map
      (fun s => decide (s.phase = .returned ∧ s.result = 0 ∧ 4 ∈ s.ring ∧ (s.buf 4).dev = 1 ∧
        (s.buf 4).lock = some .read)) = some true ∧
    ((start dirtyLast [1, 2, 3, 4, 9]).run true 1 movedAway).map
      (fun s => decide (s.phase = .returned ∧ s.result = 0 ∧ 9 ∈ s.ring ∧ (s.buf 9).dev = 1 ∧
        (s.buf 9).lock = some .write)) = some true := by
  decide +kernel

end LinuxKernel.BufferSync
