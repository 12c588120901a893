import Pintos.Filesys.Entries

/-!
# Directories when memory is short

`inode_read_at` without a bounce buffer returns 0, which `lookup` and the search of `dir_add` take for
the end of the file. So `dir_add` may miss an entry that has the name, or take a slot in use for a free
one.
-/

namespace Pintos

open Lib

namespace Filesys

variable {fs fs' : Filesys} {k : Nat} {dir : Inode} {malloc : Mallocs} {name : Name} {sector : Nat}
  {r : Bool}

/-- `dir_add` has failed and all slots are as they were, or it has stored the entry in a free slot of a
directory that did not have the name. -/
def AddAtomic (fs fs' : Filesys) (dir : Inode) (name : Name) (sector : Nat) (r : Bool) : Prop :=
  r = false ∧ dir.SameSlots fs.device fs'.device ∨
  r = true ∧ ¬ dir.Present fs.device name.1 ∧ ∃ j < dir.slots, dir.entry fs.device j = none ∧
    dir.entry fs'.device j = some (name.1, sector % 4294967296) ∧
    dir.SameBut fs.device fs'.device j

/-- `dir_remove` has failed and all slots are as they were, or the entry with the name has gone. -/
def RemoveAtomic (fs fs' : Filesys) (dir : Inode) (name : Name) (r : Bool) : Prop :=
  r = false ∧ dir.SameSlots fs.device fs'.device ∨
  r = true ∧ ∃ j < dir.slots, dir.Lists fs.device name.1 j ∧ dir.entry fs'.device j = none ∧
    dir.SameBut fs.device fs'.device j

/-- The patterns of failures that spoil `dir_add`. The entry is written, and either `lookup` has stopped
before the entry with the name and the search stops at some slot, or the name is new and the search stops
at a slot in use. -/
def Spoils (fs : Filesys) (dir : Inode) (malloc : Mallocs) (name : Name) : Prop :=
  malloc.store = true ∧ name.1 ≠ [] ∧ name.1.length ≤ nameMax ∧
  ((∃ p < dir.slots, dir.Lists fs.device name.1 p ∧ ∃ c ≤ p, malloc.lookup c = false) ∧
      (∃ j < dir.slots, malloc.slot j = false ∨ DirEntry.inUse (dir.slot fs.device j) = false) ∨
    ¬ dir.Present fs.device name.1 ∧ ∃ j < dir.slots, malloc.slot j = false ∧
      ∀ a ≤ j, DirEntry.inUse (dir.slot fs.device a) = true)

theorem stopsAt_le {d : Block} {slot : Nat → Bool} {j p : Nat} (h : dir.StopsAt d slot j)
    (hstop : slot p = false ∨ DirEntry.inUse (dir.slot d p) = false) : j ≤ p := by
  by_contra hlt
  obtain ⟨hread, huse⟩ := h.before p (Nat.not_le.mp hlt)
  rcases hstop with hcut | hfree
  · rw [hread] at hcut
    cases hcut
  · rw [huse] at hfree
    cases hfree

theorem AddAtomic.of_stored {d : Block} {j : Nat} (hj : j < dir.slots)
    (hentry : dir.entry d j = some (name.1, sector % 4294967296))
    (hothers : dir.SameBut fs.device d j) :
    fs.AddAtomic { fs with device := d } dir name sector true ↔
      ¬ dir.Present fs.device name.1 ∧ dir.entry fs.device j = none := by
  constructor
  · rintro (⟨h, -⟩ | ⟨-, hnew, j', hj', hnone, hsome, -⟩)
    · cases h
    · refine ⟨hnew, ?_⟩
      by_cases hne : j' = j
      · rw [← hne]
        exact hnone
      · have hsome : dir.entry d j' = _ := hsome
        rw [Inode.entry_congr (hothers j' hj' hne), hnone] at hsome
        cases hsome
  · rintro ⟨hnew, hnone⟩
    exact .inr ⟨rfl, hnew, j, hj, hnone, hentry, hothers⟩

theorem addAtomic_iff (hd : dir.Distinct fs.device) (h : fs.Added k dir malloc name sector r fs') :
    fs.AddAtomic fs' dir name sector r ↔ ¬ fs.Spoils dir malloc name := by
  cases h with
  | badName hbad =>
    refine iff_of_true (.inl ⟨rfl, .refl dir _⟩) ?_
    rintro ⟨-, hne, hlen, -⟩
    rcases hbad with hnil | hlong
    · exact hne hnil
    · omega
  | found hj hread hlists =>
    refine iff_of_true (.inl ⟨rfl, .refl dir _⟩) ?_
    rintro ⟨-, -, -, ⟨⟨p, hp, hlp, c, hc, hcut⟩, -⟩ | ⟨hnew, -⟩⟩
    · -- the name is in one slot only, and `lookup` has read all slots up to it
      obtain rfl := hd hj hp hlists hlp
      rw [hread c hc] at hcut
      cases hcut
    · exact hnew ⟨_, hj, hlists⟩
  | @full j d hne hlen hmissed hstops hfull hsame =>
    refine iff_of_true (.inl ⟨rfl, hsame⟩) ?_
    rintro ⟨hstore, -, -, ⟨-, p, hp, hstop⟩ | ⟨-, p, hp, hcut, -⟩⟩
    · exact hfull ⟨hstore, Nat.lt_of_le_of_lt (stopsAt_le hstops hstop) hp⟩
    · exact hfull ⟨hstore, Nat.lt_of_le_of_lt (stopsAt_le hstops (.inl hcut)) hp⟩
  | @stored j d hne hlen hmissed hstops hstore hj hentry hothers =>
    rw [AddAtomic.of_stored hj hentry hothers, Inode.entry_eq_none]
    obtain ⟨c, hc, hcut, hbefore⟩ := hmissed
    constructor
    · rintro ⟨hnew, hfree⟩ ⟨-, -, -, ⟨⟨p, hp, hlp, -⟩, -⟩ | ⟨-, p, hp, hcut, huse⟩⟩
      · exact hnew ⟨p, hp, hlp⟩
      · rw [huse j (stopsAt_le hstops (.inl hcut))] at hfree
        cases hfree
    · intro hspoils
      have hnew : ¬ dir.Present fs.device name.1 := by
        rintro ⟨p, hp, hlp⟩
        have hcp : c ≤ p := by
          by_contra hlt
          exact hbefore p (Nat.not_le.mp hlt) hlp
        exact hspoils ⟨hstore, hne, hlen, .inl ⟨⟨p, hp, hlp, c, hcp,
          hcut (Nat.lt_of_le_of_lt hcp hp)⟩, j, hj, hstops.stop hj⟩⟩
      refine ⟨hnew, Bool.eq_false_iff.mpr fun huse => ?_⟩
      rcases hstops.stop hj with hread | hfree
      · refine hspoils ⟨hstore, hne, hlen, .inr ⟨hnew, j, hj, hread, fun a ha => ?_⟩⟩
        rcases Nat.lt_or_eq_of_le ha with hlt | rfl
        · exact (hstops.before a hlt).2
        · exact huse
      · rw [huse] at hfree
        cases hfree

theorem removeAtomic_of_removed (h : fs.Removed dir malloc name r fs') :
    fs.RemoveAtomic fs' dir name r := by
  cases h with
  | missed _ => exact .inl ⟨rfl, .refl dir _⟩
  | kept _ _ _ hsame => exact .inl ⟨rfl, hsame⟩
  | erased hj hlists _ hnone hothers => exact .inr ⟨rfl, _, hj, hlists, hnone, hothers⟩

theorem AddAtomic.distinct (h : fs.AddAtomic fs' dir name sector r) (hd : dir.Distinct fs.device) :
    dir.Distinct fs'.device := by
  rcases h with ⟨-, hsame⟩ | ⟨-, hnew, j, -, -, hentry, hothers⟩
  · exact hd.sameSlots hsame
  · exact hd.add hnew hothers (Inode.entry_eq_some.mp hentry).1.2

theorem RemoveAtomic.distinct (h : fs.RemoveAtomic fs' dir name r) (hd : dir.Distinct fs.device) :
    dir.Distinct fs'.device := by
  rcases h with ⟨-, hsame⟩ | ⟨-, j, -, -, hnone, hothers⟩
  · exact hd.sameSlots hsame
  · exact hd.erase hothers hnone

end Filesys

/-! ## Sequences of calls -/

/-- A call on a directory, with the bounce buffers that it gets, or what else happens in the file
system. -/
inductive PressedCall
  | add (malloc : Mallocs) (name : Name) (sector : Nat)
  | remove (malloc : Mallocs) (release : Bool × Bool) (name : Name)
  | other (fs : Filesys)

namespace PressedCall

/-- The file system after the call. -/
def run (k : Nat) (fs : Filesys) : PressedCall → Option Filesys
  | .add malloc name sector => (fs.dirAdd malloc k name sector).map Prod.snd
  | .remove malloc release name => (fs.dirRemoveWith malloc release k name).map Prod.snd
  | .other fs' => some fs'

/-- `dir_add` is not spoiled, and what else happens leaves the directory alone. -/
def Mild (k : Nat) (dir : Inode) (fs : Filesys) : PressedCall → Prop
  | .add malloc name _ => ¬ fs.Spoils dir malloc name
  | .remove .. => True
  | .other fs' => fs'.DirReady k dir ∧ dir.SameSlots fs.device fs'.device

variable {k : Nat} {dir : Inode} {fs fs' : Filesys} {call : PressedCall}

theorem run_distinct (h : fs.DirReady k dir) (hd : dir.Distinct fs.device) (hmild : call.Mild k dir fs)
    (hrun : call.run k fs = some fs') : fs'.DirReady k dir ∧ dir.Distinct fs'.device := by
  cases call with
  | add malloc name sector =>
    obtain ⟨r, fs₁, hadd, hready, hadded⟩ := h.dirAdd malloc name sector
    simp only [run, hadd, Option.map_some, Option.some.injEq] at hrun
    subst hrun
    exact ⟨hready, ((Filesys.addAtomic_iff hd hadded).mpr hmild).distinct hd⟩
  | remove malloc release name =>
    simp only [run, Option.map_eq_some_iff] at hrun
    obtain ⟨⟨r, fs₁⟩, hremove, rfl⟩ := hrun
    obtain ⟨hready, hremoved⟩ := h.dirRemove hremove
    exact ⟨hready, (Filesys.removeAtomic_of_removed hremoved).distinct hd⟩
  | other fs₁ =>
    cases hrun
    exact ⟨hmild.1, hd.sameSlots hmild.2⟩

end PressedCall

/-- **When the calls on a directory do all or nothing.** In a directory without two entries under one
name, after any calls that were not spoiled, there are still none. `dir_remove` then does all or nothing
whatever allocations fail. `dir_add` does so exactly if the pattern of failures does not spoil it. -/
theorem dir_atomic_iff {k : Nat} {dir : Inode} {fs₀ fs : Filesys} {calls : List PressedCall}
    (hready : fs₀.DirReady k dir) (hdistinct : dir.Distinct fs₀.device)
    (hcalls : Runs (fun fs call fs' => call.run k fs = some fs')
      (fun fs call => call.Mild k dir fs) fs₀ calls fs) :
    dir.Distinct fs.device ∧
    (∀ malloc name sector, ∃ r fs', fs.dirAdd malloc k name sector = some (r, fs') ∧
      (fs.AddAtomic fs' dir name sector r ↔ ¬ fs.Spoils dir malloc name)) ∧
    ∀ malloc release name,
      (∀ r fs', fs.dirRemoveWith malloc release k name = some (r, fs') →
        fs.RemoveAtomic fs' dir name r) ∧
      ((∀ j < dir.slots, dir.Lists fs.device name.1 j →
          fs.Removable (DirEntry.inodeSector (dir.slot fs.device j))) →
        (fs.dirRemoveWith malloc release k name).isSome = true) := by
  have hinv : fs.DirReady k dir ∧ dir.Distinct fs.device := by
    refine Runs.invariant (I := fun fs => fs.DirReady k dir ∧ dir.Distinct fs.device) ?_ hcalls
      ⟨hready, hdistinct⟩
    intro fs call fs' hi hmild hrun
    exact PressedCall.run_distinct hi.1 hi.2 hmild hrun
  obtain ⟨h, hd⟩ := hinv
  refine ⟨hd, fun malloc name sector => ?_, fun malloc release name => ⟨fun r fs' hremove => ?_,
    h.dirRemove_returns malloc release⟩⟩
  · obtain ⟨r, fs', hadd, -, hadded⟩ := h.dirAdd malloc name sector
    exact ⟨r, fs', hadd, Filesys.addAtomic_iff hd hadded⟩
  · exact Filesys.removeAtomic_of_removed (h.dirRemove hremove).2

/-! ## Two spoiled calls -/

/-- A directory of two slots in sector 2, the first of which is in use under the name "a" for the inode
in sector 7. -/
def crowdedDir : Inode := ⟨2, 40⟩

def crowdedDisk : Filesys :=
  { device := ⟨9, fun s o => if s = 2 ∧ o = 0 then 7 else if s = 2 ∧ o = 4 then 97
      else if s = 2 ∧ o = 19 then 1 else 0⟩
    openInodes := fun k => if k = 1 then some ⟨1, false, 0, crowdedDir⟩ else none
    freeMap := ⟨9, fun _ => 0⟩
    freeMapFile := none
    files := [] }

theorem crowdedDisk_ready : crowdedDisk.DirReady 1 crowdedDir where
  size := by decide
  onDevice := ⟨by decide, by decide⟩
  inode := ⟨_, rfl, rfl⟩
  allowed h := by cases h; rfl
  counts {j ip} h := by
    simp only [crowdedDisk] at h
    split at h
    · cases h
      decide
    · cases h
  map h := by cases h

theorem crowdedDisk_distinct : crowdedDir.Distinct crowdedDisk.device := by
  have hfirst : ∀ i < crowdedDir.slots, ∀ {name},
      crowdedDir.Lists crowdedDisk.device name i → i = 0 := by
    intro i hi name hl
    match i, hi with
    | 0, _ => rfl
    | 1, _ => exact absurd hl.1 (by decide)
  intro i j name hi hj hli hlj
  exact (hfirst i hi hli).trans (hfirst j hj hlj).symm

/-- A removal for which `lookup` gets no buffer. -/
def missedRemove (name : Name) : PressedCall :=
  .remove ⟨fun _ => false, fun _ => true, true⟩ (true, true) name

/-- "a" is not removed, and "b" is not added when there is no buffer to store its entry. -/
theorem dir_atomic_crowded : ∃ fs r fs', Runs (fun fs call fs' => PressedCall.run 1 fs call = some fs')
      (fun fs call => call.Mild 1 crowdedDir fs) crowdedDisk [missedRemove ⟨[97], by decide⟩] fs ∧
    fs.dirAdd ⟨fun _ => true, fun _ => true, false⟩ 1 ⟨[98], by decide⟩ 8 = some (r, fs') ∧
    fs.AddAtomic fs' crowdedDir ⟨[98], by decide⟩ 8 r := by
  have hsome : ((missedRemove ⟨[97], by decide⟩).run 1 crowdedDisk).isSome = true := by decide +kernel
  obtain ⟨fs, hrun⟩ := Option.isSome_iff_exists.mp hsome
  have hmild : (missedRemove ⟨[97], by decide⟩).Mild 1 crowdedDir crowdedDisk := trivial
  obtain ⟨-, hadd, -⟩ :=
    dir_atomic_iff crowdedDisk_ready crowdedDisk_distinct (.cons hmild hrun (.nil fs))
  obtain ⟨r, fs', heq, hiff⟩ := hadd ⟨fun _ => true, fun _ => true, false⟩ ⟨[98], by decide⟩ 8
  refine ⟨fs, r, fs', .cons hmild hrun (.nil fs), heq, hiff.mpr ?_⟩
  rintro ⟨hstore, -⟩
  cases hstore

/-- If `lookup` gets no buffer for the first slot "a" is added a second time. If the search gets none for
it the entry of "a" is overwritten by that of "b". -/
theorem dirAdd_spoiled :
    (crowdedDisk.dirAdd ⟨fun _ => false, fun _ => true, true⟩ 1 ⟨[97], by decide⟩ 8).map
        (fun (r, fs) => (r, crowdedDir.entries fs.device)) = some (true, [([97], 7), ([97], 8)]) ∧
    (crowdedDisk.dirAdd ⟨fun _ => true, fun _ => false, true⟩ 1 ⟨[98], by decide⟩ 8).map
        (fun (r, fs) => (r, crowdedDir.entries fs.device)) = some (true, [([98], 8)]) := by
  decide +kernel

end Pintos
