import LinuxKernel.LineEnds
import LinuxKernel.MsdosTextModel
import Mathlib.Data.List.GetD

/-!
# The round trip of a text file

What a file holds is the form of the text with two characters for a line end, as far as there is
room.  A write that finds no room when it has put in only the first of them does not say so.
-/

namespace LinuxKernel.MsdosText
open List

open LineEnds

variable {v : Volume} {f f' : File} {raw bs buf s t : List Byte} {pos sector i j k n : ℕ}
  {carry : Bool}

/-! ## Sectors -/

namespace Volume

def sectorAt (v : Volume) (sector : ℕ) : Option ℕ :=
  (v.free[sector / v.clusterSize]?).map fun cluster =>
    v.sectorOf cluster (sector % v.clusterSize)

def available (v : Volume) (sector : ℕ) : Bool := (v.sectorAt sector).any fun s => !v.bad s

theorem smap_eq (v : Volume) (f : File) (sector : ℕ) :
    v.smap f sector = if sector / v.clusterSize < f.clusters then v.sectorAt sector else none := by
  unfold smap sectorAt
  rw [List.getElem?_take]
  split_ifs <;> rfl

theorem sectorAt_eq_none_iff (v : Volume) (sector : ℕ) :
    v.sectorAt sector = none ↔ v.free.length ≤ sector / v.clusterSize := by
  unfold sectorAt
  rw [Option.map_eq_none_iff, List.getElem?_eq_none_iff]

theorem sectorAt_inj (hi : v.sectorAt i = some k) (hj : v.sectorAt j = some k) : i = j := by
  obtain ⟨c, hc, hsector⟩ := Option.map_eq_some_iff.mp hi
  obtain ⟨d, hd, hsector'⟩ := Option.map_eq_some_iff.mp hj
  have hpos := v.clusterSize_pos
  have hi' : i % v.clusterSize < v.clusterSize := Nat.mod_lt _ hpos
  have hj' : j % v.clusterSize < v.clusterSize := Nat.mod_lt _ hpos
  have hsum : (c - 2) * v.clusterSize + i % v.clusterSize =
      (d - 2) * v.clusterSize + j % v.clusterSize := by
    unfold sectorOf at hsector hsector'
    omega
  have hquot : c - 2 = d - 2 := by
    have hdiv := congrArg (· / v.clusterSize) hsum
    simpa [Nat.add_comm, Nat.add_mul_div_right, hpos, Nat.div_eq_of_lt hi', Nat.div_eq_of_lt hj']
      using hdiv
  have hrem : i % v.clusterSize = j % v.clusterSize := by
    rw [hquot] at hsum
    omega
  have hcd : c = d := by
    have h1 := v.two_le c (mem_of_getElem? hc)
    have h2 := v.two_le d (mem_of_getElem? hd)
    omega
  have hindex : i / v.clusterSize = j / v.clusterSize := by
    have hlt := (List.getElem?_eq_some_iff.mp hc).1
    exact (List.getElem?_inj hlt v.nodup).mp (hc.trans (hcd ▸ hd.symm))
  rw [← Nat.div_add_mod i v.clusterSize, ← Nat.div_add_mod j v.clusterSize, hindex, hrem]

theorem exists_not_available (v : Volume) : ∃ i, v.available i = false := by
  refine ⟨v.free.length * v.clusterSize, ?_⟩
  unfold available
  rw [(sectorAt_eq_none_iff v _).mpr]
  · rfl
  · rw [Nat.mul_div_cancel _ v.clusterSize_pos]

def room (v : Volume) : ℕ := Nat.find v.exists_not_available

theorem available_of_lt_room (h : i < v.room) : v.available i = true := by
  simpa using Nat.find_min v.exists_not_available h

theorem not_available_room (v : Volume) : v.available v.room = false :=
  Nat.find_spec v.exists_not_available

theorem exists_sectorAt (h : i < v.room) : ∃ s, v.sectorAt i = some s ∧ v.bad s = false := by
  have havailable := available_of_lt_room h
  unfold available at havailable
  cases hs : v.sectorAt i with
  | none =>
    rw [hs] at havailable
    exact absurd havailable (by simp)
  | some s =>
    rw [hs] at havailable
    exact ⟨s, rfl, by simpa using havailable⟩

theorem bad_of_not_lt_room (h : v.sectorAt v.room = some k) : v.bad k = true := by
  have havailable := v.not_available_room
  unfold available at havailable
  rw [h] at havailable
  simpa using havailable

end Volume

/-! ## The file -/

structure Keeps (v : Volume) (f f' : File) : Prop where
  size : f'.size = f.size
  clusters : f.clusters ≤ f'.clusters
  data : ∀ j s, j / v.clusterSize < f.clusters → v.sectorAt j = some s → f'.data s = f.data s

theorem Keeps.refl (v : Volume) (f : File) : Keeps v f f := ⟨rfl, le_rfl, fun _ _ _ _ => rfl⟩

theorem Keeps.trans {f'' : File} (h : Keeps v f f') (h' : Keeps v f' f'') : Keeps v f f'' := by
  refine ⟨h'.size.trans h.size, h.clusters.trans h'.clusters, fun j s hj hs => ?_⟩
  rw [h'.data j s (hj.trans_le h.clusters) hs, h.data j s hj hs]

theorem keeps_addCluster (h : v.addCluster f = some f') :
    Keeps v f f' ∧ f'.clusters = f.clusters + 1 ∧ f.clusters < v.free.length := by
  obtain ⟨c, hc, rfl⟩ := Option.map_eq_some_iff.mp h
  refine ⟨⟨rfl, Nat.le_succ _, fun j s hj hs => ?_⟩, rfl, (List.getElem?_eq_some_iff.mp hc).1⟩
  funext i
  apply if_neg
  rintro ⟨hlow, hhigh⟩
  -- the sector would be in the new cluster, under the number that is `s - sectorOf c 0`
  have hpos := v.clusterSize_pos
  unfold Volume.sectorOf at hlow hhigh
  have hoff : s - v.sectorOf c 0 < v.clusterSize := by
    unfold Volume.sectorOf
    omega
  have hother : v.sectorAt (s - v.sectorOf c 0 + v.clusterSize * f.clusters) = some s := by
    unfold Volume.sectorAt
    rw [Nat.add_mul_div_left _ _ hpos, Nat.div_eq_of_lt hoff, Nat.zero_add, hc,
      Nat.add_mul_mod_self_left, Nat.mod_eq_of_lt hoff]
    unfold Volume.sectorOf
    simp
    omega
  rw [Volume.sectorAt_inj hs hother, Nat.add_mul_div_left _ _ hpos, Nat.div_eq_of_lt hoff] at hj
  omega

theorem place_spec (sector : ℕ) (hclusters : f.clusters ≤ v.free.length)
    (hn : v.free.length < n + f.clusters) :
    Keeps v f (v.place sector n f).1 ∧ (v.place sector n f).1.clusters ≤ v.free.length ∧
      (v.place sector n f).2 = v.sectorAt sector ∧
      ((v.place sector n f).2 = none ∨
        sector / v.clusterSize < (v.place sector n f).1.clusters) := by
  induction n generalizing f with
  | zero => omega
  | succ n ih =>
    rw [Volume.place]
    by_cases hhas : sector / v.clusterSize < f.clusters
    · have hsome : v.smap f sector = v.sectorAt sector := by rw [v.smap_eq, if_pos hhas]
      cases hs : v.smap f sector with
      | none =>
        rw [hsome, Volume.sectorAt_eq_none_iff] at hs
        omega
      | some s => exact ⟨Keeps.refl v f, hclusters, hs.symm.trans hsome, .inr hhas⟩
    · have hnone : v.smap f sector = none := by rw [v.smap_eq, if_neg hhas]
      rw [hnone]
      cases hadd : v.addCluster f with
      | none =>
        have hfull : v.free.length ≤ f.clusters := by
          unfold Volume.addCluster at hadd
          rwa [Option.map_eq_none_iff, List.getElem?_eq_none_iff] at hadd
        have hend : v.sectorAt sector = none := by
          rw [Volume.sectorAt_eq_none_iff]
          omega
        exact ⟨Keeps.refl v f, hclusters, hend.symm, .inl rfl⟩
      | some f' =>
        obtain ⟨hkeeps, hmore, hlt⟩ := keeps_addCluster hadd
        obtain ⟨hkeeps', hle, hresult, hin⟩ := ih (f := f') (by omega) (by omega)
        exact ⟨hkeeps.trans hkeeps', hle, hresult, hin⟩

structure Holds (v : Volume) (f : File) (raw : List Byte) : Prop where
  size : f.size = raw.length
  fits : raw.length ≤ sectorSize * v.room
  clusters : f.clusters ≤ v.free.length
  covers : raw.length ≤ sectorSize * v.clusterSize * f.clusters
  data : ∀ i (h : i < raw.length), ∃ s, v.sectorAt (i / sectorSize) = some s ∧
    f.data s (i % sectorSize) = raw[i]

section
variable (h : Holds v f raw)
include h

theorem Holds.cluster_lt (hi : i < raw.length) : i / sectorSize / v.clusterSize < f.clusters := by
  have hcovers := h.covers
  rw [Nat.div_div_eq_div_mul]
  exact Nat.div_lt_of_lt_mul (hi.trans_le hcovers)

theorem Holds.keeps (hkeeps : Keeps v f f') (hclusters : f'.clusters ≤ v.free.length) :
    Holds v f' raw := by
  refine ⟨hkeeps.size.trans h.size, h.fits, hclusters, ?_, fun i hi => ?_⟩
  · exact h.covers.trans (Nat.mul_le_mul_left _ hkeeps.clusters)
  · obtain ⟨s, hs, hdata⟩ := h.data i hi
    refine ⟨s, hs, ?_⟩
    rw [hkeeps.data _ s (h.cluster_lt hi) hs]
    exact hdata

theorem Holds.truncate : Holds v (v.truncate f) raw := by
  have hpos := v.clusterSize_pos
  refine ⟨h.size, h.fits, (min_le_left _ _).trans h.clusters, ?_, h.data⟩
  have hcovers := h.covers
  unfold Volume.truncate
  dsimp only
  rw [h.size]
  rcases le_total f.clusters ((raw.length + (sectorSize * v.clusterSize - 1)) /
    (sectorSize * v.clusterSize)) with hle | hle
  · rwa [min_eq_left hle]
  · rw [min_eq_right hle]
    have hcluster : 0 < sectorSize * v.clusterSize := Nat.mul_pos (by decide) hpos
    have hdiv := Nat.lt_mul_div_succ (raw.length + (sectorSize * v.clusterSize - 1)) hcluster
    rw [Nat.mul_add] at hdiv
    omega

theorem Holds.put (hs : v.sectorAt (raw.length / sectorSize) = some sector)
    (hlt : raw.length / sectorSize < v.room)
    (hin : raw.length / sectorSize / v.clusterSize < f.clusters)
    (hroom : raw.length % sectorSize + bs.length ≤ sectorSize) :
    Holds v (f.put sector raw.length bs) (raw ++ bs) := by
  have hpos := v.clusterSize_pos
  have hdiv := Nat.div_add_mod raw.length sectorSize
  refine ⟨?_, ?_, h.clusters, ?_, fun i hi => ?_⟩
  · have := h.size
    unfold File.put
    rw [length_append]
    dsimp only
    omega
  · rw [length_append]
    have hle := Nat.mul_le_mul_left sectorSize (Nat.succ_le_of_lt hlt)
    rw [Nat.mul_succ] at hle
    omega
  · have hle := Nat.mul_le_mul_left sectorSize
      (Nat.succ_le_of_lt ((Nat.div_lt_iff_lt_mul hpos).mp hin))
    rw [Nat.mul_succ, Nat.mul_comm f.clusters, ← Nat.mul_assoc] at hle
    rw [length_append]
    unfold File.put
    dsimp only
    omega
  · have hlast : i / sectorSize ≤ raw.length / sectorSize ∧
        (raw.length ≤ i → i / sectorSize = raw.length / sectorSize ∧
          i % sectorSize = raw.length % sectorSize + (i - raw.length)) := by
      rw [length_append] at hi
      simp only [sectorSize] at hroom ⊢
      omega
    unfold File.put
    dsimp only
    rcases lt_or_ge i raw.length with hold | hnew
    · obtain ⟨s, hs', hdata⟩ := h.data i hold
      refine ⟨s, hs', ?_⟩
      rw [if_neg, hdata, getElem_append_left hold]
      rintro ⟨rfl, hlow, -⟩
      have hsame := Volume.sectorAt_inj hs' hs
      have hmod := Nat.div_add_mod i sectorSize
      rw [hsame] at hmod
      omega
    · obtain ⟨hsame, hmod⟩ := hlast.2 hnew
      have hbyte : i - raw.length < bs.length := by
        rw [length_append] at hi
        omega
      refine ⟨sector, by rw [hsame, hs], ?_⟩
      rw [if_pos ⟨rfl, by omega, by omega⟩, getElem_append_right hnew, hmod,
        Nat.add_sub_cancel_left, getD_eq_getElem _ _ hbyte]

omit h in
theorem cr_ne_lf : lf ≠ cr := by decide

omit h in
theorem fill_spec (left : ℕ) (bs : List Byte) :
    (fill left bs).1 ++ pending (fill left bs).2.2 ++ encode cr lf (fill left bs).2.1 =
        encode cr lf bs ∧
      (fill left bs).1.length ≤ left ∧ (fill left bs).2.1 <:+ bs ∧
      ((fill left bs).1.length = left ∨ (fill left bs).2 = ([], false)) := by
  induction bs generalizing left with
  | nil => simp [fill, pending]
  | cons ch bs ih =>
    cases left with
    | zero => simp [fill, pending]
    | succ left =>
      rw [fill]
      by_cases hlf : ch = lf
      · subst hlf
        rw [if_pos rfl, encode_cons_lf]
        by_cases hleft : left = 0
        · subst hleft
          simp [pending, suffix_cons]
        · obtain ⟨htext, hlen, hsuffix, hend⟩ := ih (left - 1)
          rw [if_neg hleft, ← htext]
          refine ⟨by simp, ?_, hsuffix.trans (suffix_cons _ _), ?_⟩
          · simp
            omega
          · refine hend.imp_left fun hfull => ?_
            simp
            omega
      · obtain ⟨htext, hlen, hsuffix, hend⟩ := ih left
        rw [if_neg hlf, encode_cons_of_ne cr hlf, ← htext]
        refine ⟨by simp, ?_, hsuffix.trans (suffix_cons _ _), ?_⟩
        · simp
          omega
        · refine hend.imp_left fun hfull => ?_
          simp
          omega

theorem Holds.full (hnot : ¬ raw.length / sectorSize < v.room) :
    raw.length = sectorSize * v.room := by
  have hfits := h.fits
  have hdiv := Nat.div_mul_le_self raw.length sectorSize
  have hle := Nat.mul_le_mul_right sectorSize (not_lt.mp hnot)
  rw [Nat.mul_comm v.room] at hle
  omega

end

theorem writeLoop_spec (bs : List Byte) (carry : Bool) (h : Holds v f raw) :
    ∃ raw' carry', Holds v (writeLoop v f raw.length bs carry).1 raw' ∧
      (writeLoop v f raw.length bs carry).2.1 = raw'.length ∧
      raw' ++ pending carry' ++ encode cr lf (writeLoop v f raw.length bs carry).2.2.1 =
        raw ++ pending carry ++ encode cr lf bs ∧
      (writeLoop v f raw.length bs carry).2.2.1 <:+ bs ∧
      (((writeLoop v f raw.length bs carry).2.2.1 = [] ∧ carry' = false ∧
          (writeLoop v f raw.length bs carry).2.2.2 = none) ∨
        (raw'.length = sectorSize * v.room ∧
          (writeLoop v f raw.length bs carry).2.2.2 ≠ none)) := by
  -- each turn takes a byte or writes the second half of a line end
  induction hmeasure : 2 * bs.length + carry.toNat using Nat.strong_induction_on
    generalizing f raw bs carry with
  | _ m ih =>
    rw [writeLoop]
    by_cases hdone : bs = [] ∧ carry = false
    · rw [if_pos hdone]
      exact ⟨raw, carry, h, rfl, rfl, suffix_rfl, .inl ⟨hdone.1, hdone.2, rfl⟩⟩
    · rw [if_neg hdone]
      obtain ⟨hkeeps, hclusters, hplace, hin⟩ := place_spec (v := v) (f := f)
        (n := v.free.length + 1) (raw.length / sectorSize) h.clusters (by omega)
      have hholds := h.keeps hkeeps hclusters
      generalize v.place (raw.length / sectorSize) (v.free.length + 1) f = p at *
      obtain ⟨f', o⟩ := p
      cases o with
      | none =>
        have hfull := h.full fun hlt => by
          obtain ⟨s, hs, -⟩ := Volume.exists_sectorAt hlt
          rw [← hplace] at hs
          exact absurd hs (by simp)
        exact ⟨raw, carry, hholds.truncate, rfl, rfl, suffix_rfl, .inr ⟨hfull, by simp⟩⟩
      | some sector =>
        dsimp only
        by_cases hbad : v.bad sector = true
        · rw [if_pos hbad]
          have hfull := h.full fun hlt => by
            obtain ⟨s, hs, hgood⟩ := Volume.exists_sectorAt hlt
            rw [← hplace] at hs
            rw [Option.some.inj hs, hgood] at hbad
            exact absurd hbad (by simp)
          exact ⟨raw, carry, hholds, rfl, rfl, suffix_rfl, .inr ⟨hfull, by simp⟩⟩
        · rw [if_neg hbad]
          have hlt : raw.length / sectorSize < v.room := by
            by_contra hnot
            have hdiv := h.full hnot
            have hquot : raw.length / sectorSize = v.room := by
              rw [hdiv, Nat.mul_div_cancel_left _ (by decide)]
            rw [hquot] at hplace
            exact hbad (Volume.bad_of_not_lt_room hplace.symm)
          have hcluster : raw.length / sectorSize / v.clusterSize < f'.clusters := by
            rcases hin with hnone | hin
            · exact absurd hnone (by simp)
            · exact hin
          have hrest : 0 < sectorSize - raw.length % sectorSize :=
            Nat.sub_pos_of_lt (Nat.mod_lt _ (by decide))
          have hcarry := length_pending carry
          have hless := fill_lt (sectorSize - raw.length % sectorSize - (pending carry).length) bs
          obtain ⟨htext, hlen, hsuffix, -⟩ :=
            fill_spec (sectorSize - raw.length % sectorSize - (pending carry).length) bs
          generalize fill (sectorSize - raw.length % sectorSize - (pending carry).length) bs = r
            at *
          have hroom : raw.length % sectorSize + (pending carry ++ r.1).length ≤ sectorSize := by
            cases carry <;> simp at * <;> omega
          have hput := hholds.put hplace.symm hlt hcluster hroom
          have hmore : 2 * r.2.1.length + r.2.2.toNat < m := by
            cases carry with
            | true =>
              simp only [Bool.toNat_true] at hmeasure
              omega
            | false =>
              rw [Bool.toNat_false] at hcarry hmeasure
              have := hless.2 (by omega) (by simpa using hdone)
              omega
          obtain ⟨raw', carry', hh, hpos, hall, hsuf, hend⟩ := ih _ hmore _ _ hput rfl
          rw [length_append] at hh hpos hall hsuf hend
          refine ⟨raw', carry', hh, hpos, ?_, hsuf.trans hsuffix, hend⟩
          rw [hall, ← htext]
          simp

/-! ## Sequences of writes -/

def taken : Except Err ℕ → ℕ
  | .ok n => n
  | .error _ => 0

/-- The calls of `msdos_file_write`, and the bytes that they say they have written. -/
def writes (v : Volume) : Open → List (List Byte) → Open × List Byte
  | o, [] => (o, [])
  | o, buf :: bufs =>
    let r := fileWrite v o buf
    let rest := writes v r.1 bufs
    (rest.1, buf.take (taken r.2) ++ rest.2)

/-- The text that the calls say they have written, `s`, is in the file, maybe but for the second
half of its last line end; it is all of `t`, or the file is full. -/
structure Written (v : Volume) (o : Open) (s t : List Byte) (raw : List Byte) (carry : Bool) :
    Prop where
  holds : Holds v o.file raw
  pos : o.pos = raw.length
  form : raw ++ pending carry = encode cr lf s
  all : s <+: t
  stop : (s = t ∧ carry = false) ∨ raw.length = sectorSize * v.room

theorem eq_nil_of_pending (h : pending carry = encode cr lf s) : s = [] := by
  cases carry with
  | false => exact encode_eq_nil h.symm
  | true =>
    cases s with
    | nil => rfl
    | cons b s =>
      by_cases hlf : b = lf
      · subst hlf
        exact absurd (List.cons.inj h).1 (by decide)
      · rw [encode_cons_of_ne cr hlf] at h
        exact absurd (List.cons.inj h).1.symm hlf

theorem fileWrite_eq (v : Volume) (o : Open) (buf : List Byte) (hbuf : buf ≠ []) :
    (fileWrite v o buf).1 = ⟨(writeLoop v o.file o.pos buf false).1,
        (writeLoop v o.file o.pos buf false).2.1⟩ ∧
      taken (fileWrite v o buf).2 =
        buf.length - (writeLoop v o.file o.pos buf false).2.2.1.length := by
  unfold fileWrite
  rw [if_neg hbuf]
  dsimp only
  cases (writeLoop v o.file o.pos buf false).2.2.2 with
  | none => exact ⟨rfl, rfl⟩
  | some e =>
    split_ifs with hlen
    · exact ⟨rfl, by simp [taken, hlen]⟩
    · exact ⟨rfl, rfl⟩

theorem Written.fileWrite {o : Open} (h : Written v o s t raw carry) (buf : List Byte) :
    ∃ raw' carry', Written v (fileWrite v o buf).1
      (s ++ buf.take (taken (MsdosText.fileWrite v o buf).2)) (t ++ buf) raw' carry' := by
  by_cases hbuf : buf = []
  · subst hbuf
    refine ⟨raw, carry, ?_⟩
    simpa [MsdosText.fileWrite] using h
  · obtain ⟨hstate, htaken⟩ := fileWrite_eq v o buf hbuf
    obtain ⟨raw', carry', hholds, hpos, htext, ⟨done, hdone⟩, hend⟩ :=
      writeLoop_spec buf false h.holds
    rw [hstate, htaken]
    rw [h.pos] at *
    generalize writeLoop v o.file raw.length buf false = r at *
    have htake : buf.take (buf.length - r.2.2.1.length) = done := by
      rw [← hdone, length_append, Nat.add_sub_cancel, take_left]
    have hform : raw' ++ pending carry' = raw ++ encode cr lf done := by
      rw [← hdone, encode_append, ← append_assoc] at htext
      simpa [pending] using append_cancel_right htext
    rw [htake]
    rcases h.stop with ⟨hst, hcarry⟩ | hfull
    · refine ⟨raw', carry', hholds, hpos, ?_, ?_, ?_⟩
      · have hraw := h.form
        rw [hcarry] at hraw
        rw [hform, encode_append, ← hraw]
        simp [pending]
      · rw [hst, ← hdone, ← append_assoc]
        exact prefix_append _ _
      · rcases hend with ⟨hrest, hno, -⟩ | ⟨hlen, -⟩
        · rw [hrest, append_nil] at hdone
          exact .inl ⟨by rw [hst, hdone], hno⟩
        · exact .inr hlen
    · -- the file is full already, and nothing is written
      have hsame : raw'.length = raw.length := by
        rcases hend with ⟨-, hno, -⟩ | ⟨hlen, -⟩
        · have hlength := congrArg List.length hform
          have hfits := hholds.fits
          rw [hno] at hlength
          simp at hlength
          omega
        · omega
      obtain ⟨hraw, hrest⟩ := append_inj hform hsame
      have hnone := eq_nil_of_pending hrest
      rw [hnone, append_nil]
      refine ⟨raw', carry, hholds, hpos, ?_, h.all.trans (prefix_append _ _), .inr ?_⟩
      · rw [hraw]
        exact h.form
      · rw [hraw]
        exact hfull

theorem Written.writes {o : Open} (h : Written v o s t raw carry) (bufs : List (List Byte)) :
    ∃ raw' carry', Written v (writes v o bufs).1 (s ++ (MsdosText.writes v o bufs).2)
      (t ++ bufs.flatten) raw' carry' := by
  induction bufs generalizing o s t raw carry with
  | nil => exact ⟨raw, carry, by simpa [MsdosText.writes] using h⟩
  | cons buf bufs ih =>
    obtain ⟨raw1, carry1, h₁⟩ := h.fileWrite buf
    obtain ⟨raw2, carry2, h₂⟩ := ih h₁
    refine ⟨raw2, carry2, ?_⟩
    simpa [MsdosText.writes] using h₂

def empty : Open where
  file := { clusters := 0, data := fun _ _ => 0, size := 0 }
  pos := 0

theorem written_empty (v : Volume) : Written v empty [] [] [] false :=
  ⟨⟨rfl, Nat.zero_le _, Nat.zero_le _, Nat.zero_le _, fun _ h => absurd h (by simp)⟩, rfl, rfl,
    prefix_rfl, .inl ⟨rfl, rfl⟩⟩

theorem Written.carry_iff {o : Open} (h : Written v o s t raw carry) :
    carry = true ↔ ∃ u w, t = u ++ lf :: w ∧ (encode cr lf u).length + 1 = sectorSize * v.room := by
  obtain ⟨rest, hrest⟩ := h.all
  have hform := h.form
  constructor
  · intro hcarry
    have hfull : raw.length = sectorSize * v.room := by
      rcases h.stop with ⟨-, hno⟩ | hfull
      · rw [hno] at hcarry
        exact absurd hcarry (by simp)
      · exact hfull
    rw [hcarry] at hform
    -- the text ends with the character of which the second half is lost
    cases hs : s using List.reverseRecOn with
    | nil =>
      rw [hs] at hform
      exact absurd hform (by simp [pending])
    | append_singleton u b =>
      rw [hs, encode_append] at hform
      by_cases hlf : b = lf
      · subst hlf
        refine ⟨u, rest, by rw [← hrest, hs]; simp, ?_⟩
        have hlen := congrArg List.length hform
        rw [encode_cons_lf] at hlen
        simp [pending] at hlen
        omega
      · rw [encode_cons_of_ne cr hlf, encode_nil] at hform
        have hlast := congrArg List.getLast? hform
        simp [pending] at hlast
        exact absurd hlast.symm hlf
  · rintro ⟨u, w, ht, hlen⟩
    by_contra hcarry
    rw [Bool.not_eq_true] at hcarry
    rw [hcarry] at hform
    have hraw : raw = encode cr lf s := by simpa [pending] using hform
    rcases h.stop with ⟨hst, -⟩ | hfull
    · have hfits := h.holds.fits
      rw [hraw, hst, ht, encode_append, encode_cons_lf] at hfits
      simp at hfits
      omega
    · rw [hraw, ← hlen] at hfull
      exact length_encode_ne_succ ht.symm hrest hfull

/-! ## Reading -/

theorem scan_eq (h : eof ∉ bs) : scan bs = (decode cr bs, false) := by
  induction bs with
  | nil => rfl
  | cons ch bs ih =>
    have hch : ch ≠ eof := fun heq => h (heq ▸ mem_cons_self)
    have hbs := ih fun hmem => h (mem_cons_of_mem ch hmem)
    rw [scan]
    by_cases hcr : ch = cr
    · subst hcr
      rw [if_pos rfl, hbs, decode_cons_self]
    · rw [if_neg hcr, if_pos hch, hbs, decode_cons_of_ne hcr]

theorem Holds.read (h : Holds v f raw) (hs : v.sectorAt (pos / sectorSize) = some sector)
    (hfile : pos + n ≤ raw.length) (hsector : pos % sectorSize + n ≤ sectorSize) :
    (List.range n).map (fun i => f.data sector (pos % sectorSize + i)) = (raw.drop pos).take n := by
  apply ext_getElem
  · simp
    omega
  · intro i hi hi'
    rw [length_map, length_range] at hi
    have hdiv : (pos + i) / sectorSize = pos / sectorSize ∧
        (pos + i) % sectorSize = pos % sectorSize + i := by
      simp only [sectorSize] at hsector ⊢
      omega
    obtain ⟨s, hs', hdata⟩ := h.data (pos + i) (by omega)
    rw [hdiv.1, hs] at hs'
    obtain rfl := Option.some.inj hs'
    rw [hdiv.2] at hdata
    simpa using hdata

theorem readLoop_spec (buf : List Byte) (h : Holds v f raw) (heof : eof ∉ raw)
    (hpos : pos ≤ raw.length) :
    ∃ w, (readLoop v f n pos buf).1 = buf ++ w ∧
      decode cr (raw.take (readLoop v f n pos buf).2) = decode cr (raw.take pos) ++ w ∧
      pos ≤ (readLoop v f n pos buf).2 ∧ (readLoop v f n pos buf).2 ≤ raw.length ∧
      (buf.length ≤ n → buf.length + w.length ≤ n) ∧
      ((readLoop v f n pos buf).2 = raw.length ∨ n ≤ buf.length + w.length) := by
  induction hleft : raw.length - pos using Nat.strong_induction_on generalizing pos buf with
  | _ m ih =>
    have hsize := h.size
    rw [readLoop]
    split_ifs with hend
    · exact ⟨[], by simp, by simp, le_rfl, hpos, by simp, by simp; omega⟩
    · have hlt : pos < raw.length := by omega
      obtain ⟨sector, hs, -⟩ := h.data pos hlt
      have hroom : pos / sectorSize < v.room := by
        have hfits := h.fits
        exact Nat.div_lt_of_lt_mul (hlt.trans_le hfits)
      have hmod : pos % sectorSize < sectorSize := Nat.mod_lt _ (by decide)
      have hsmap : v.smap f (pos / sectorSize) = some sector := by
        rw [v.smap_eq, if_pos (h.cluster_lt hlt), hs]
      have hgood : v.bad sector = false := by
        obtain ⟨s, hs', hgood⟩ := Volume.exists_sectorAt hroom
        rw [hs] at hs'
        rw [Option.some.inj hs', hgood]
      rw [hsmap]
      dsimp only
      rw [if_neg (by rw [hgood]; simp)]
      generalize hk : min (sectorSize - pos % sectorSize) (min (f.size - pos) (n - buf.length)) = k
      have hbytes := h.read hs (n := k) (by omega) (by omega)
      have hscan : scan ((raw.drop pos).take k) = (decode cr ((raw.drop pos).take k), false) :=
        scan_eq fun hmem => heof (mem_of_mem_drop (mem_of_mem_take hmem))
      rw [hbytes, hscan]
      dsimp only
      rw [if_neg (by simp)]
      have hless : raw.length - (pos + k) < m := by omega
      obtain ⟨w, hbuf, htext, hge, hle, hfits, hstop⟩ :=
        ih _ hless (buf ++ decode cr ((raw.drop pos).take k))
          (show pos + k ≤ raw.length by omega) rfl
      have hshort : (decode cr ((raw.drop pos).take k)).length ≤ k :=
        (length_filter_le _ _).trans (length_take_le _ _)
      rw [length_append] at hfits hstop
      refine ⟨decode cr ((raw.drop pos).take k) ++ w, ?_, ?_, by omega, hle, ?_, ?_⟩
      · rw [hbuf, append_assoc]
      · rw [htext, take_add, decode_append, append_assoc]
      · intro hn
        rw [length_append]
        omega
      · rw [length_append]
        omega

def reads (v : Volume) : Open → List ℕ → Open × List (Except Err (List Byte))
  | o, [] => (o, [])
  | o, count :: counts =>
    let r := fileRead v o count
    let rest := reads v r.1 counts
    (rest.1, r.2 :: rest.2)

def ReadsBack (v : Volume) (f : File) (s : List Byte) : Prop :=
  ∀ counts : List ℕ, (∀ c ∈ counts, 0 < c) →
    (∃ parts : List (List Byte), (reads v ⟨f, 0⟩ counts).2 = parts.map .ok ∧
      parts.flatten = s.take counts.sum) ∧
    (s.length ≤ counts.sum → ∀ c, (fileRead v (reads v ⟨f, 0⟩ counts).1 c).2 = .ok [])

section
variable (h : Holds v f raw) (heof : eof ∉ raw) (hlast : raw.getLast? ≠ some cr)
  (hpos : pos ≤ raw.length)
include h heof hlast hpos

theorem fileRead_spec (hk : decode cr (raw.take pos) = (decode cr raw).take k) (hn : 0 < n) :
    ∃ w pos', fileRead v ⟨f, pos⟩ n = (⟨f, pos'⟩, .ok w) ∧ pos' ≤ raw.length ∧
      (decode cr raw).take k ++ w = (decode cr raw).take (k + n) ∧
      decode cr (raw.take pos') = (decode cr raw).take (k + n) := by
  have hsize := h.size
  have hsplit : ∀ p, decode cr raw = decode cr (raw.take p) ++ decode cr (raw.drop p) := by
    intro p
    rw [← decode_append, take_append_drop]
  by_cases hend : f.size ≤ pos
  · have hp : pos = raw.length := by omega
    rw [hp, take_length] at hk
    have hlong : (decode cr raw).length ≤ k := by
      have hlen := congrArg List.length hk
      rw [length_take] at hlen
      omega
    refine ⟨[], pos, ?_, hpos, ?_, ?_⟩
    · unfold fileRead
      rw [if_pos (.inl hend)]
    · rw [append_nil, take_of_length_le hlong, take_of_length_le (by omega)]
    · rw [hp, take_length, take_of_length_le (by omega)]
  · obtain ⟨w, hbuf, htext, hge, hle, hfits, hstop⟩ := readLoop_spec [] (n := n) h heof hpos
    rw [nil_append] at hbuf
    rw [length_nil, Nat.zero_add] at hfits hstop
    have hwhole := hsplit pos
    have hrem := decode_drop_ne_nil (n := pos) hlast (by omega)
    have hk' : k ≤ (decode cr raw).length := by
      have hlen := congrArg List.length hk
      have hlen' := congrArg List.length hwhole
      have hpos' := length_pos_iff.mpr hrem
      rw [length_take] at hlen
      rw [length_append] at hlen'
      omega
    have htake : (decode cr raw).take k ++ w = (decode cr raw).take (k + n) := by
      rw [← hk, ← htext]
      have hkept := hsplit (readLoop v f n pos []).2
      rcases hstop with hall | hfull
      · have hlen := congrArg List.length htext
        rw [hall, take_length] at hlen ⊢
        rw [length_append, hk, length_take] at hlen
        rw [take_of_length_le (by omega)]
      · have hlen := congrArg List.length htext
        rw [length_append, hk, length_take] at hlen
        have hexact : (decode cr (raw.take (readLoop v f n pos []).2)).length = k + n := by omega
        rw [hkept, take_left' hexact]
    refine ⟨w, (readLoop v f n pos []).2, ?_, hle, htake, ?_⟩
    · have hw : w ≠ [] := by
        rintro rfl
        rcases hstop with hall | hfull
        · rw [hall, take_length, append_nil, hwhole] at htext
          exact hrem (by simpa using htext)
        · rw [length_nil] at hfull
          omega
      unfold fileRead
      rw [if_neg (by simp; omega)]
      dsimp only
      rw [hbuf, if_neg hw]
    · rw [htext, hk, htake]

theorem reads_spec (hk : decode cr (raw.take pos) = (decode cr raw).take k) (counts : List ℕ)
    (hcounts : ∀ c ∈ counts, 0 < c) :
    ∃ parts : List (List Byte), (reads v ⟨f, pos⟩ counts).2 = parts.map .ok ∧
      (decode cr raw).take k ++ parts.flatten = (decode cr raw).take (k + counts.sum) ∧
      ∃ pos', (reads v ⟨f, pos⟩ counts).1 = ⟨f, pos'⟩ ∧ pos' ≤ raw.length ∧
        decode cr (raw.take pos') = (decode cr raw).take (k + counts.sum) := by
  induction counts generalizing pos k with
  | nil => exact ⟨[], rfl, by simp, pos, rfl, hpos, by simpa using hk⟩
  | cons c counts ih =>
    obtain ⟨w, pos1, hread, hpos1, hw, hk1⟩ :=
      fileRead_spec h heof hlast hpos hk (hcounts c mem_cons_self)
    obtain ⟨parts, hparts, htext, pos2, hstate, hpos2, hk2⟩ :=
      ih hpos1 hk1 fun c' hc' => hcounts c' (mem_cons_of_mem c hc')
    rw [reads, hread]
    refine ⟨w :: parts, ?_, ?_, pos2, hstate, hpos2, ?_⟩
    · rw [hparts]
      rfl
    · rw [flatten_cons, ← append_assoc, hw, htext, sum_cons, Nat.add_assoc]
    · rw [hk2, sum_cons, Nat.add_assoc]

end

theorem Holds.readsBack (h : Holds v f (encode cr lf s)) (hcr : cr ∉ s) (heof : eof ∉ s) :
    ReadsBack v f s := by
  intro counts hcounts
  have hdecode := decode_encode cr_ne_lf hcr
  have hlast := getLast?_encode cr_ne_lf hcr
  have heof' : eof ∉ encode cr lf s := by
    intro hmem
    rcases mem_encode hmem with heq | hmem
    · exact absurd heq (by decide)
    · exact heof hmem
  obtain ⟨parts, hparts, htext, pos, hstate, hpos, hk⟩ :=
    reads_spec h heof' hlast (Nat.zero_le _) (k := 0) (by simp) counts hcounts
  rw [hdecode, Nat.zero_add] at htext hk
  refine ⟨⟨parts, hparts, by simpa using htext⟩, fun hlong c => ?_⟩
  have hend : (encode cr lf s).length ≤ pos := by
    by_contra hless
    have hrest := decode_drop_ne_nil (n := pos) hlast (by omega)
    have hwhole := decode_append cr ((encode cr lf s).take pos) ((encode cr lf s).drop pos)
    rw [take_append_drop, hdecode, hk, take_of_length_le hlong] at hwhole
    exact hrest (by simpa using hwhole)
  have hsize := h.size
  rw [hstate]
  unfold fileRead
  rw [if_pos (.inl (by dsimp only; omega))]

theorem Holds.not_readsBack (h : Holds v f raw) (hform : raw ++ [lf] = encode cr lf s)
    (hcr : cr ∉ s) (heof : eof ∉ s) : ¬ ReadsBack v f s := by
  intro hback
  have hdecode : decode cr raw ++ [lf] = s := by
    rw [← decode_encode cr_ne_lf hcr, ← hform, decode_append, decode_cons_of_ne cr_ne_lf]
    rfl
  have hlong : (decode cr raw).length + 1 = s.length := by
    rw [← hdecode]
    simp
  have heof' : eof ∉ raw := by
    intro hmem
    have hin : eof ∈ encode cr lf s := hform ▸ mem_append_left _ hmem
    rcases mem_encode hin with heq | hin
    · exact absurd heq (by decide)
    · exact heof hin
  obtain ⟨⟨parts, hparts, htext⟩, -⟩ := hback [s.length] (by simp; omega)
  obtain ⟨w, hbuf, hmore, -, hle, -⟩ := readLoop_spec [] (n := s.length) h heof' (Nat.zero_le _)
  rw [take_zero, decode_nil, nil_append] at hmore
  have hshort : w.length ≤ (decode cr raw).length := by
    have hwhole := decode_append cr (raw.take (readLoop v f s.length 0 []).2)
      (raw.drop (readLoop v f s.length 0 []).2)
    rw [take_append_drop, hmore] at hwhole
    rw [hwhole, length_append]
    omega
  have hread : (fileRead v ⟨f, 0⟩ s.length).2 = .ok [] ∨ (fileRead v ⟨f, 0⟩ s.length).2 = .ok w ∨
      (fileRead v ⟨f, 0⟩ s.length).2 = .error .eio := by
    unfold fileRead
    split_ifs with hend
    · exact .inl rfl
    · dsimp only
      rw [hbuf]
      split_ifs
      · exact .inr (.inr rfl)
      · exact .inr (.inl rfl)
  have hone : (reads v ⟨f, 0⟩ [s.length]).2 = [(fileRead v ⟨f, 0⟩ s.length).2] := rfl
  rw [hone] at hparts
  -- the one part is too short
  cases parts with
  | nil => exact absurd hparts (by simp)
  | cons part parts =>
    obtain ⟨hpart, hnone⟩ := List.cons.inj hparts
    obtain rfl : parts = [] := by simpa using hnone.symm
    have hall : part = s := by simpa using htext
    rw [hpart] at hread
    rcases hread with heq | heq | heq
    · have hlen := congrArg List.length ((Except.ok.inj heq).symm.trans hall)
      rw [length_nil] at hlen
      omega
    · have hlen := congrArg List.length ((Except.ok.inj heq).symm.trans hall)
      omega
    · exact absurd heq (by simp)

theorem Written.readsBack_iff {o : Open} (h : Written v o s t raw carry)
    (htext : ∀ b ∈ t, b ≠ cr ∧ b ≠ eof) : ReadsBack v o.file s ↔ carry = false := by
  have hcr : cr ∉ s := fun hb => (htext cr (h.all.subset hb)).1 rfl
  have heof : eof ∉ s := fun hb => (htext eof (h.all.subset hb)).2 rfl
  have hholds := h.holds
  have hform := h.form
  cases hcarry : carry with
  | false =>
    rw [hcarry, pending, if_neg (by simp), append_nil] at hform
    rw [hform] at hholds
    exact iff_of_true (hholds.readsBack hcr heof) rfl
  | true =>
    rw [hcarry] at hform
    exact iff_of_false (hholds.not_readsBack hform hcr heof) (by simp)

/-- A text that is written in any pieces is read back in any pieces, if and only if the room for
the file does not end within a line end of it. -/
theorem writes_readsBack_iff (v : Volume) (bufs : List (List Byte))
    (htext : ∀ buf ∈ bufs, cr ∉ buf ∧ eof ∉ buf) :
    ReadsBack v (writes v empty bufs).1.file (writes v empty bufs).2 ↔
      ∀ u w, bufs.flatten = u ++ lf :: w → (encode cr lf u).length + 1 ≠ sectorSize * v.room := by
  obtain ⟨raw, carry, h⟩ := (written_empty v).writes bufs
  rw [nil_append, nil_append] at h
  have hbytes : ∀ b ∈ bufs.flatten, b ≠ cr ∧ b ≠ eof := by
    intro b hb
    obtain ⟨buf, hbuf, hin⟩ := mem_flatten.mp hb
    obtain ⟨hcr, heof⟩ := htext buf hbuf
    exact ⟨fun heq => hcr (heq ▸ hin), fun heq => heof (heq ▸ hin)⟩
  rw [h.readsBack_iff hbytes, ← Bool.not_eq_true, h.carry_iff]
  push Not
  rfl

def oneSector : Volume where
  clusterSize := 1
  dataStart := 20
  free := [2]
  bad := fun _ => false
  clusterSize_pos := Nat.one_pos
  nodup := nodup_singleton 2
  two_le := by simp

theorem room_oneSector : oneSector.room = 1 := by
  unfold Volume.room
  rw [Nat.find_eq_iff]
  refine ⟨by decide, fun n hn => ?_⟩
  obtain rfl : n = 0 := by omega
  decide

/-- The letter `a` and a line end, in two writes. -/
theorem writes_readsBack_two :
    ReadsBack oneSector (writes oneSector empty [[0x61], [lf]]).1.file
      (writes oneSector empty [[0x61], [lf]]).2 := by
  refine (writes_readsBack_iff oneSector [[0x61], [lf]] (by decide)).mpr fun u w huw => ?_
  have hlen := congrArg List.length huw
  have hle := length_encode_le cr lf u
  simp at hlen
  simp only [sectorSize]
  omega

/-- A line of 511 letters and its line end fill the sector: the call says that it has written all,
but the line end is not read back. -/
theorem writes_lost_line_end :
    (writes oneSector empty [List.replicate 511 0x61 ++ [lf]]).2 = List.replicate 511 0x61 ++ [lf] ∧
      ¬ ReadsBack oneSector (writes oneSector empty [List.replicate 511 0x61 ++ [lf]]).1.file
        (writes oneSector empty [List.replicate 511 0x61 ++ [lf]]).2 := by
  obtain ⟨raw, carry, h⟩ := (written_empty oneSector).writes [List.replicate 511 0x61 ++ [lf]]
  rw [nil_append, nil_append] at h
  have hflatten : [List.replicate 511 (0x61 : Byte) ++ [lf]].flatten =
      List.replicate 511 0x61 ++ [lf] := by
    rw [flatten_cons, flatten_nil, append_nil]
  have hcarry : carry = true := by
    refine h.carry_iff.mpr ⟨List.replicate 511 0x61, [], hflatten, ?_⟩
    rw [encode_replicate_of_ne cr (by decide), length_replicate, room_oneSector]
    rfl
  have hbytes : ∀ b ∈ [List.replicate 511 (0x61 : Byte) ++ [lf]].flatten, b ≠ cr ∧ b ≠ eof := by
    intro b hb
    rw [hflatten, mem_append, mem_replicate, mem_singleton] at hb
    rcases hb with ⟨-, rfl⟩ | rfl <;> decide
  constructor
  · obtain ⟨rest, hrest⟩ := h.all
    have hform := congrArg List.length h.form
    have hall := congrArg (fun l => (encode cr lf l).length) hrest
    have hfull : raw.length = 512 := by
      rcases h.stop with ⟨-, hno⟩ | hfull
      · rw [hno] at hcarry
        exact absurd hcarry (by simp)
      · rw [hfull, room_oneSector]
        rfl
    rw [hcarry, length_append, hfull] at hform
    simp only [hflatten, encode_append, encode_replicate_of_ne cr (show (0x61 : Byte) ≠ lf by
      decide), encode_cons_lf, length_append, length_replicate] at hall
    simp only [length_pending, Bool.toNat_true, encode_nil, length_cons, length_nil]
      at hform hall
    have hnone : (encode cr lf rest).length = 0 := by omega
    have hnil : rest = [] := encode_eq_nil (length_eq_zero_iff.mp hnone)
    rw [hnil, append_nil, hflatten] at hrest
    exact hrest
  · rw [h.readsBack_iff hbytes, hcarry]
    simp

end LinuxKernel.MsdosText
