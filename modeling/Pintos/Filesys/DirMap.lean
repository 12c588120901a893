import Pintos.Filesys.Pressure

/-!
# A directory is a finite map

`dir_add`, `dir_remove`, `dir_lookup` and `dir_readdir` on one directory, with memory for all buffers.
What the directory stands for is the function `find` from names to sectors of inodes.
-/

namespace Pintos

open Lib Function List Inode DirEntry

namespace Inode

variable {dir : Inode} {d d' : Block} {name : List UInt8} {i j s : Nat}

/-! ## The map -/

/-- The sector of the inode that the directory has for a name. -/
def find (dir : Inode) (d : Block) (name : List UInt8) : Option Nat :=
  ((dir.entries d).find? fun e => e.1 = name).map Prod.snd

/-- All names in use end inside their field. -/
def Terminated (dir : Inode) (d : Block) : Prop :=
  ∀ ⦃i name⦄, i < dir.slots → dir.Lists d name i → name.length ≤ nameMax

theorem Terminated.sameSlots (h : dir.Terminated d) (hsame : dir.SameSlots d d') :
    dir.Terminated d' := by
  intro i name hi hl
  exact h hi ((lists_congr (hsame i hi)).mp hl)

theorem mem_entries {e : List UInt8 × Nat} :
    e ∈ dir.entries d ↔ ∃ i < dir.slots, dir.entry d i = some e := by
  unfold entries
  simp only [mem_filterMap, mem_range]

theorem Distinct.entry_unique {e e' : List UInt8 × Nat} (hd : dir.Distinct d)
    (he : e ∈ dir.entries d) (he' : e' ∈ dir.entries d) (hname : e.1 = e'.1) : e = e' := by
  obtain ⟨i, hi, hentry⟩ := mem_entries.mp he
  obtain ⟨j, hj, hentry'⟩ := mem_entries.mp he'
  have hlists : dir.Lists d e.1 j := by
    rw [hname]
    exact (entry_eq_some.mp hentry').1
  obtain rfl := hd hi hj (entry_eq_some.mp hentry).1 hlists
  rw [hentry] at hentry'
  cases hentry'
  rfl

theorem find_eq_some (hd : dir.Distinct d) :
    dir.find d name = some s ↔ ∃ i < dir.slots, dir.entry d i = some (name, s) := by
  rw [← mem_entries]
  unfold find
  rw [Option.map_eq_some_iff]
  constructor
  · rintro ⟨⟨name', s'⟩, hfind, rfl⟩
    have hname := find?_some hfind
    simp only [decide_eq_true_eq] at hname
    subst hname
    exact mem_of_find?_eq_some hfind
  · intro hmem
    have hsome : ((dir.entries d).find? fun e => e.1 = name).isSome = true :=
      find?_isSome.mpr ⟨_, hmem, decide_eq_true rfl⟩
    obtain ⟨e, he⟩ := Option.isSome_iff_exists.mp hsome
    have hname := find?_some he
    simp only [decide_eq_true_eq] at hname
    refine ⟨e, he, ?_⟩
    rw [hd.entry_unique (mem_of_find?_eq_some he) hmem hname]

theorem lists_iff_entry : dir.Lists d name i ↔ ∃ s, dir.entry d i = some (name, s) := by
  constructor
  · exact fun hl => ⟨_, entry_eq_some.mpr ⟨hl, rfl⟩⟩
  · exact fun ⟨_, hentry⟩ => (entry_eq_some.mp hentry).1

theorem find_isSome (hd : dir.Distinct d) :
    (dir.find d name).isSome = true ↔ dir.Present d name := by
  rw [Option.isSome_iff_exists]
  simp only [find_eq_some hd, Present, lists_iff_entry]
  exact ⟨fun ⟨s, i, hi, h⟩ => ⟨i, hi, s, h⟩, fun ⟨i, hi, s, h⟩ => ⟨s, i, hi, h⟩⟩

theorem find_sameSlots (h : dir.SameSlots d d') : dir.find d' = dir.find d := by
  funext name
  unfold find
  rw [h.entries]

theorem find_add (hd : dir.Distinct d) (hnew : ¬ dir.Present d name) (hj : j < dir.slots)
    (hfree : dir.entry d j = none) (hentry : dir.entry d' j = some (name, s))
    (hsame : dir.SameBut d d' j) : dir.find d' = update (dir.find d) name (some s) := by
  have hd' : dir.Distinct d' := hd.add hnew hsame (entry_eq_some.mp hentry).1.2
  funext other
  by_cases hname : other = name
  · subst hname
    rw [update_self, find_eq_some hd']
    exact ⟨j, hj, hentry⟩
  · rw [update_of_ne hname]
    refine Option.ext fun s' => ?_
    rw [find_eq_some hd, find_eq_some hd']
    refine exists_congr fun i => and_congr_right fun hi => ?_
    by_cases hij : i = j
    · subst hij
      rw [hentry, hfree]
      refine iff_of_false ?_ nofun
      rintro ⟨⟩
      exact hname rfl
    · rw [entry_congr (hsame i hi hij)]

theorem find_erase (hd : dir.Distinct d) (hj : j < dir.slots) (hlists : dir.Lists d name j)
    (hnone : dir.entry d' j = none) (hsame : dir.SameBut d d' j) :
    dir.find d' = update (dir.find d) name none := by
  have hd' : dir.Distinct d' := hd.erase hsame hnone
  funext other
  refine Option.ext fun s => ?_
  rw [find_eq_some hd']
  by_cases hname : other = name
  · subst hname
    rw [update_self]
    refine iff_of_false ?_ nofun
    rintro ⟨i, hi, hentry⟩
    by_cases hij : i = j
    · subst hij
      rw [hnone] at hentry
      cases hentry
    · rw [entry_congr (hsame i hi hij)] at hentry
      exact hij (hd hi hj (entry_eq_some.mp hentry).1 hlists)
  · rw [update_of_ne hname, find_eq_some hd]
    refine exists_congr fun i => and_congr_right fun hi => ?_
    by_cases hij : i = j
    · subst hij
      rw [hnone]
      refine iff_of_false nofun fun hentry => hname ?_
      exact (entry_eq_some.mp hentry).1.2.symm.trans hlists.2
    · rw [entry_congr (hsame i hi hij)]

/-- The names in use, in the order of the slots. -/
def names (dir : Inode) (d : Block) : List (List UInt8) := (dir.entries d).map Prod.fst

theorem mem_names : name ∈ dir.names d ↔ dir.Present d name := by
  unfold names Present
  simp only [mem_map, mem_entries, lists_iff_entry]
  constructor
  · rintro ⟨⟨_, s⟩, ⟨i, hi, hentry⟩, rfl⟩
    exact ⟨i, hi, s, hentry⟩
  · rintro ⟨i, hi, s, hentry⟩
    exact ⟨(name, s), ⟨i, hi, hentry⟩, rfl⟩

theorem Distinct.names_nodup (hd : dir.Distinct d) : (dir.names d).Nodup := by
  unfold names entries
  rw [List.Nodup, pairwise_map, pairwise_filterMap]
  refine nodup_range.imp_of_mem fun {i j} hi hj hne => ?_
  intro e he e' he' heq
  refine hne (hd (mem_range.mp hi) (mem_range.mp hj) (entry_eq_some.mp he).1 ?_)
  rw [heq]
  exact (entry_eq_some.mp he').1

end Inode

namespace Filesys

variable {fs fs' : Filesys} {k : Nat} {dir : Inode}

/-! ## Reading the names -/

/-- The names that repeated calls of `dir_readdir` return, up to the first that returns none. -/
def readdirAll (fs : Filesys) (dir : Nat) : Nat → Nat → Option (List (List UInt8))
  | 0, _ => none
  | fuel + 1, pos => do
      let (name, pos) ← fs.dirReaddir dir pos
      match name with
      | some name =>
        let names ← fs.readdirAll dir fuel pos
        return name :: names
      | none => return []

theorem Opens.readdirLoop (h : fs.Opens k dir) {fuel i : Nat} (hfuel : dir.slots < i + fuel)
    (hi : i ≤ dir.slots) (e : Mem) :
    (∃ j name s, i ≤ j ∧ j < dir.slots ∧ (∀ a, i ≤ a → a < j → dir.entry fs.device a = none) ∧
      dir.entry fs.device j = some (name, s) ∧
      fs.readdirLoop k fuel (20 * i) e = some (some (name.take nameMax), 20 * (j + 1))) ∨
    (∀ a, i ≤ a → a < dir.slots → dir.entry fs.device a = none) ∧
      ∃ pos, fs.readdirLoop k fuel (20 * i) e = some (none, pos) := by
  induction fuel generalizing i e with
  | zero => omega
  | succ fuel ih =>
    obtain ⟨n, e', hread, hn, hsame⟩ := h.readSlot true e i
    by_cases hall : n = 20
    · have hlt : i < dir.slots := (hn.mp hall).2
      have hsame := hsame hall
      cases huse : inUse (dir.slot fs.device i) with
      | true =>
        refine .inl ⟨i, name e', inodeSector e', Nat.le_refl i, hlt,
          fun a ha ha' => by omega, ?_, ?_⟩
        · rw [entry_eq_some]
          exact ⟨⟨huse, hsame.name.symm⟩, hsame.inodeSector.symm⟩
        · have huse' := hsame.inUse.trans huse
          simp [Filesys.readdirLoop, hread, hall, huse', Nat.mul_add]
      | false =>
        have hnext : fs.readdirLoop k (fuel + 1) (20 * i) e =
            fs.readdirLoop k fuel (20 * (i + 1)) e' := by
          have huse' := hsame.inUse.trans huse
          simp [Filesys.readdirLoop, hread, hall, huse', Nat.mul_add]
        have hempty := entry_eq_none.mpr huse
        rw [hnext]
        rcases ih (by omega) hlt e' with ⟨j, name, s, hle, hj, hskip, hrest⟩ | ⟨hskip, hres⟩
        · refine .inl ⟨j, name, s, by omega, hj, fun a ha ha' => ?_, hrest⟩
          rcases Nat.lt_or_eq_of_le ha with hgt | rfl
          · exact hskip a hgt ha'
          · exact hempty
        · refine .inr ⟨fun a ha ha' => ?_, hres⟩
          rcases Nat.lt_or_eq_of_le ha with hgt | rfl
          · exact hskip a hgt ha'
          · exact hempty
    · refine .inr ⟨fun a ha ha' => absurd (hn.mpr ⟨rfl, by omega⟩) hall, 20 * i, ?_⟩
      simp [Filesys.readdirLoop, hread, hall]

theorem Opens.readdirFrom (h : fs.Opens k dir) {fuel i : Nat} (hfuel : dir.slots < i + fuel)
    (hi : i ≤ dir.slots) :
    fs.readdirAll k fuel (20 * i) =
      some (((List.range' i (dir.slots - i)).filterMap (dir.entry fs.device)).map
        fun e => e.1.take nameMax) := by
  induction fuel generalizing i with
  | zero => omega
  | succ fuel ih =>
    have hrounds : dir.slots < i + fs.dirRounds k := by
      rw [h.dirRounds]
      omega
    rcases h.readdirLoop hrounds hi fun _ => 0 with
      ⟨j, name, s, hle, hj, hskip, hentry, hres⟩ | ⟨hskip, pos, hres⟩
    · -- the slots up to `j` are free
      have hsplit : range' i (dir.slots - i) =
          range' i (j - i) ++ j :: range' (j + 1) (dir.slots - (j + 1)) := by
        have hlen : dir.slots - i = (j - i) + (dir.slots - (j + 1) + 1) := by omega
        have hmid : i + 1 * (j - i) = j := by omega
        rw [hlen, ← range'_append, hmid, range'_succ]
      have hfree : (range' i (j - i)).filterMap (dir.entry fs.device) = [] := by
        refine filterMap_eq_nil_iff.mpr fun a ha => ?_
        rw [mem_range'_1] at ha
        exact hskip a ha.1 (by omega)
      have hdir : fs.dirReaddir k (20 * i) = _ := hres
      rw [hsplit, filterMap_append, hfree, nil_append, filterMap_cons_some hentry]
      simp [Filesys.readdirAll, hdir, ih (by omega) hj]
    · have hfree : (range' i (dir.slots - i)).filterMap (dir.entry fs.device) = [] := by
        refine filterMap_eq_nil_iff.mpr fun a ha => ?_
        rw [mem_range'_1] at ha
        exact hskip a ha.1 (by omega)
      have hdir : fs.dirReaddir k (20 * i) = _ := hres
      rw [hfree]
      simp [Filesys.readdirAll, hdir]

theorem Opens.readdirAll_eq (h : fs.Opens k dir) (hterm : dir.Terminated fs.device) :
    fs.readdirAll k (fs.dirRounds k) 0 = some (dir.names fs.device) := by
  have hfuel : dir.slots < 0 + fs.dirRounds k := by
    rw [h.dirRounds]
    omega
  have hall := h.readdirFrom hfuel (Nat.zero_le _)
  rw [Nat.sub_zero, ← range_eq_range'] at hall
  refine hall.trans (congrArg some (map_congr_left fun e he => ?_))
  obtain ⟨i, hi, hentry⟩ := mem_filterMap.mp he
  exact take_of_length_le (hterm (mem_range.mp hi) (entry_eq_some.mp hentry).1)

/-! ## The calls -/

theorem missed_all {d : Block} {name : List UInt8} :
    dir.Missed d Mallocs.all.lookup name ↔ ¬ dir.Present d name := by
  constructor
  · rintro ⟨c, hc, hcut, hnone⟩ ⟨i, hi, hl⟩
    refine hnone i (Nat.lt_of_lt_of_le hi ?_) hl
    exact Nat.not_lt.mp fun hlt => Bool.noConfusion (hcut hlt)
  · intro hnew
    exact ⟨dir.slots, Nat.le_refl _, fun hlt => absurd hlt (Nat.lt_irrefl _),
      fun a ha hl => hnew ⟨a, ha, hl⟩⟩

theorem Added.rejects {name : Name} {sector : Nat} {r : Bool}
    (h : fs.Added k dir .all name sector r fs') :
    r = false ↔ name.1 = [] ∨ nameMax < name.1.length ∨ dir.Present fs.device name.1 ∨
      ∀ i < dir.slots, DirEntry.inUse (dir.slot fs.device i) = true := by
  cases h with
  | badName hbad => exact iff_of_true rfl (hbad.imp_right .inl)
  | found hj _ hlists => exact iff_of_true rfl (.inr (.inr (.inl ⟨_, hj, hlists⟩)))
  | @full j d _ _ _ hstops hfull _ =>
    have hend : j = dir.slots := Nat.le_antisymm hstops.le (Nat.not_lt.mp fun hlt => hfull ⟨rfl, hlt⟩)
    subst hend
    exact iff_of_true rfl (.inr (.inr (.inr fun i hi => (hstops.before i hi).2)))
  | stored hne hlen hmissed hstops _ hj _ _ =>
    refine iff_of_false (by simp) ?_
    rintro (hnil | hlong | hpresent | hall)
    · exact hne hnil
    · omega
    · exact missed_all.mp hmissed hpresent
    · rcases hstops.stop hj with hcut | hfree
      · cases hcut
      · rw [hall _ hj] at hfree
        cases hfree

theorem not_spoils_all {name : Name} : ¬ fs.Spoils dir .all name := by
  rintro ⟨-, -, -, ⟨⟨p, -, -, c, -, hcut⟩, -⟩ | ⟨-, j, -, hcut, -⟩⟩
  · cases hcut
  · cases hcut

theorem Added.terminated {malloc : Mallocs} {name : Name} {sector : Nat} {r : Bool}
    (h : fs.Added k dir malloc name sector r fs') (hterm : dir.Terminated fs.device) :
    dir.Terminated fs'.device := by
  cases h with
  | badName _ => exact hterm
  | found _ _ _ => exact hterm
  | full _ _ _ _ _ hsame => exact hterm.sameSlots hsame
  | @stored j d _ hlen _ _ _ hj hentry hothers =>
    intro i other hi hl
    by_cases hij : i = j
    · subst hij
      rw [← hl.2, (entry_eq_some.mp hentry).1.2]
      exact hlen
    · exact hterm hi ((lists_congr (hothers i hi hij)).mp hl)

theorem Removed.terminated {malloc : Mallocs} {name : Name} {r : Bool}
    (h : fs.Removed dir malloc name r fs') (hterm : dir.Terminated fs.device) :
    dir.Terminated fs'.device := by
  cases h with
  | missed _ => exact hterm
  | kept _ _ _ hsame => exact hterm.sameSlots hsame
  | @erased j _ hj _ _ hnone hothers =>
    intro i other hi hl
    by_cases hij : i = j
    · subst hij
      exact absurd hl (not_lists_of_entry hnone)
    · exact hterm hi ((lists_congr (hothers i hi hij)).mp hl)

theorem DirReady.dirLookup (h : fs.DirReady k dir) (hd : dir.Distinct fs.device) (name : Name) :
    fs.dirLookup Mallocs.all.lookup k name =
      match dir.find fs.device name.1 with
      | some s => (fs.inodeOpen s).map fun fs' => (some s, fs')
      | none => some (none, fs) := by
  rcases h.lookup Mallocs.all.lookup name.1 with
    ⟨j, e, hj, -, hlists, hsame, hfound⟩ | ⟨c, hc, hcut, hnone, hmissed⟩
  · have hfind : dir.find fs.device name.1 = some (inodeSector e) := by
      rw [find_eq_some hd]
      exact ⟨j, hj, entry_eq_some.mpr ⟨hlists, hsame.inodeSector.symm⟩⟩
    simp only [Filesys.dirLookup, hfound, hfind, Option.bind_eq_bind, Option.bind_some]
    cases fs.inodeOpen (inodeSector e) <;> rfl
  · have hnew := missed_all.mp ⟨c, hc, hcut, hnone⟩
    have hfind : dir.find fs.device name.1 = none := by
      rw [← Option.not_isSome_iff_eq_none, find_isSome hd]
      exact hnew
    simp only [Filesys.dirLookup, hmissed, hfind, Option.bind_eq_bind, Option.bind_some]
    rfl

end Filesys

open Filesys

/-! ## Runs -/

/-- A call on the directory, or what else happens in the file system. A `UInt32` is a
`block_sector_t`. -/
inductive DirCall
  | add (name : Name) (sector : UInt32)
  | remove (name : Name)
  | lookup (name : Name)
  | other (fs : Filesys)

namespace DirCall

/-- The call: whether it succeeds, and the file system after it. -/
def run (k : Nat) (fs : Filesys) : DirCall → Option (Bool × Filesys)
  | .add name sector => fs.dirAdd .all k name sector.toNat
  | .remove name => fs.dirRemove .all k name
  | .lookup name => (fs.dirLookup Mallocs.all.lookup k name).map fun (inode, fs) => (inode.isSome, fs)
  | .other fs' => some (true, fs')

/-- What else happens leaves the directory alone. -/
def Undisturbed (k : Nat) (dir : Inode) (fs : Filesys) : DirCall → Prop
  | .other fs' => fs'.DirReady k dir ∧ dir.SameSlots fs.device fs'.device
  | _ => True

/-- What a call with its result does to the map: a name has the sector of its last successful `dir_add`,
until it is removed. -/
def record (m : List UInt8 → Option Nat) : DirCall × Bool → List UInt8 → Option Nat
  | (.add name sector, true) => update m name.1 (some sector.toNat)
  | (.remove name, true) => update m name.1 none
  | _ => m

/-- The directory stands for the map `m`. -/
structure Stands (k : Nat) (dir : Inode) (fs : Filesys) (m : List UInt8 → Option Nat) : Prop where
  ready : fs.DirReady k dir
  distinct : dir.Distinct fs.device
  terminated : dir.Terminated fs.device
  find : dir.find fs.device = m

variable {k : Nat} {dir : Inode} {fs fs' : Filesys} {m : List UInt8 → Option Nat} {call : DirCall}
  {r : Bool}

section

variable (h : Stands k dir fs m)
include h

theorem Stands.sameSlots (hready : fs'.DirReady k dir) (hsame : dir.SameSlots fs.device fs'.device) :
    Stands k dir fs' m where
  ready := hready
  distinct := h.distinct.sameSlots hsame
  terminated := h.terminated.sameSlots hsame
  find := (find_sameSlots hsame).trans h.find

theorem Stands.run (hcall : call.Undisturbed k dir fs) (hrun : call.run k fs = some (r, fs')) :
    Stands k dir fs' (record m (call, r)) := by
  cases call with
  | add name sector =>
    obtain ⟨r', fs₁, hadd, hready, hadded⟩ := h.ready.dirAdd .all name sector.toNat
    have hrun : fs.dirAdd .all k name sector.toNat = some (r, fs') := hrun
    rw [hadd] at hrun
    cases hrun
    have hatomic := (addAtomic_iff h.distinct hadded).mpr not_spoils_all
    have hterm := hadded.terminated h.terminated
    have hdistinct := hatomic.distinct h.distinct
    rcases hatomic with ⟨rfl, hsame⟩ | ⟨rfl, hnew, j, hj, hfree, hentry, hothers⟩
    · exact h.sameSlots hready hsame
    · refine ⟨hready, hdistinct, hterm, ?_⟩
      have hmod : sector.toNat % 4294967296 = sector.toNat := Nat.mod_eq_of_lt sector.toNat_lt
      rw [hmod] at hentry
      rw [find_add h.distinct hnew hj hfree hentry hothers, h.find]
      rfl
  | remove name =>
    have hremove : fs.dirRemoveWith .all (true, true) k name = some (r, fs') := hrun
    obtain ⟨hready, hremoved⟩ := h.ready.dirRemove hremove
    have hatomic := removeAtomic_of_removed hremoved
    have hdistinct := hatomic.distinct h.distinct
    rcases hatomic with ⟨rfl, hsame⟩ | ⟨rfl, j, hj, hlists, hnone, hothers⟩
    · exact h.sameSlots hready hsame
    · refine ⟨hready, hdistinct, hremoved.terminated h.terminated, ?_⟩
      rw [find_erase h.distinct hj hlists hnone hothers, h.find]
      rfl
  | lookup name =>
    simp only [DirCall.run, h.ready.dirLookup h.distinct, Option.map_eq_some_iff] at hrun
    obtain ⟨⟨inode, fs₁⟩, hlookup, heq⟩ := hrun
    cases heq
    split at hlookup
    · simp only [Option.map_eq_some_iff] at hlookup
      obtain ⟨fs₂, hopen, heq⟩ := hlookup
      cases heq
      obtain ⟨ip₁, rfl, -, hready⟩ := h.ready.inodeOpen hopen
      exact h.sameSlots hready (.refl dir _)
    · cases hlookup
      exact h
  | other fs₁ =>
    cases hrun
    exact h.sameSlots hcall.1 hcall.2

theorem Stands.isSome_iff (name : List UInt8) :
    (m name).isSome = true ↔ dir.Present fs.device name := by
  rw [← h.find]
  exact find_isSome h.distinct

theorem Stands.add (name : Name) (sector : Nat) :
    ∃ r fs', fs.dirAdd .all k name sector = some (r, fs') ∧
      (r = false ↔ name.1 = [] ∨ nameMax < name.1.length ∨ (m name.1).isSome = true ∨
        ∀ i < dir.slots, DirEntry.inUse (dir.slot fs.device i) = true) ∧
      (r = false → dir.SameSlots fs.device fs'.device) := by
  obtain ⟨r, fs', hadd, -, hadded⟩ := h.ready.dirAdd .all name sector
  refine ⟨r, fs', hadd, ?_, ?_⟩
  · rw [h.isSome_iff]
    exact hadded.rejects
  · rintro rfl
    rcases (addAtomic_iff h.distinct hadded).mpr not_spoils_all with
      ⟨-, hsame⟩ | ⟨htrue, -⟩
    · exact hsame
    · cases htrue

theorem Stands.remove_missing {name : Name} (hnone : m name.1 = none) :
    fs.dirRemove .all k name = some (false, fs) := by
  have hnew : ¬ dir.Present fs.device name.1 := by
    rw [← h.isSome_iff, hnone]
    nofun
  rcases h.ready.lookup Mallocs.all.lookup name.1 with
    ⟨j, e, hj, -, hl, -⟩ | ⟨c, -, -, -, hmissed⟩
  · exact absurd ⟨j, hj, hl⟩ hnew
  · simp only [dirRemove, dirRemoveWith, hmissed, Option.bind_eq_bind, Option.bind_some]
    rfl

theorem Stands.remove_found {name : Name} {s : Nat} (hs : m name.1 = some s)
    (hremove : fs.dirRemove .all k name = some (r, fs')) : r = true := by
  have hp : dir.Present fs.device name.1 := by
    rw [← h.isSome_iff, hs]
    rfl
  have hremove : fs.dirRemoveWith .all (true, true) k name = some (r, fs') := hremove
  cases (h.ready.dirRemove hremove).2 with
  | missed hmissed => exact absurd hp (missed_all.mp hmissed)
  | kept _ _ hstore _ => cases hstore
  | erased => rfl

theorem Stands.remove_returns {name : Name} {s : Nat} (hs : m name.1 = some s)
    (hremovable : fs.Removable s) : (fs.dirRemove .all k name).isSome = true := by
  refine h.ready.dirRemove_returns .all (true, true) fun j hj hl => ?_
  rw [← h.find, find_eq_some h.distinct] at hs
  obtain ⟨i, hi, hentry⟩ := hs
  obtain ⟨hli, hsector⟩ := entry_eq_some.mp hentry
  obtain rfl := h.distinct hi hj hli hl
  rw [hsector]
  exact hremovable

end

end DirCall

/-- **A directory is a finite map.** After any calls there is at most one entry in use under a name, and
the map `m` that the successful calls make tells what the next call does. `dir_lookup` opens the inode
that `m` has. `dir_add` fails for a bad name, a name that `m` has and a full directory only.
`dir_remove` fails for a name that `m` does not have only; that it returns depends on the inode that is
removed. A call that fails leaves all slots. `dir_readdir` returns each name of `m` once. -/
theorem dir_is_map {k : Nat} {dir : Inode} {fs₀ fs : Filesys} {calls : List (DirCall × Bool)}
    (hready : fs₀.DirReady k dir) (hdistinct : dir.Distinct fs₀.device)
    (hterm : dir.Terminated fs₀.device)
    (hcalls : Runs (fun fs c fs' => c.1.run k fs = some (c.2, fs'))
      (fun fs c => c.1.Undisturbed k dir fs) fs₀ calls fs)
    {m : List UInt8 → Option Nat} (hm : calls.foldl DirCall.record (dir.find fs₀.device) = m) :
    dir.Distinct fs.device ∧
    (∀ name, fs.dirLookup Mallocs.all.lookup k name =
      match m name.1 with
      | some s => (fs.inodeOpen s).map fun fs' => (some s, fs')
      | none => some (none, fs)) ∧
    (∀ name sector, ∃ r fs', fs.dirAdd .all k name sector = some (r, fs') ∧
      (r = false ↔ name.1 = [] ∨ nameMax < name.1.length ∨ (m name.1).isSome = true ∨
        ∀ i < dir.slots, DirEntry.inUse (dir.slot fs.device i) = true) ∧
      (r = false → dir.SameSlots fs.device fs'.device)) ∧
    (∀ name, (m name.1 = none → fs.dirRemove .all k name = some (false, fs)) ∧
      ∀ s, m name.1 = some s → (∀ r fs', fs.dirRemove .all k name = some (r, fs') → r = true) ∧
        (fs.Removable s → (fs.dirRemove .all k name).isSome = true)) ∧
    ∃ names, fs.readdirAll k (fs.dirRounds k) 0 = some names ∧ names.Nodup ∧
      ∀ name, name ∈ names ↔ (m name).isSome = true := by
  have h : DirCall.Stands k dir fs m := by
    rw [← hm]
    refine Runs.simulate (R := DirCall.Stands k dir) ?_ hcalls ⟨hready, hdistinct, hterm, rfl⟩
    intro fs m c fs' h hcall hrun
    exact h.run hcall hrun
  refine ⟨h.distinct, fun name => ?_, h.add, fun name => ⟨h.remove_missing, fun s hs =>
    ⟨fun r fs' => h.remove_found hs, h.remove_returns hs⟩⟩, ?_⟩
  · rw [← h.find]
    exact h.ready.dirLookup h.distinct name
  · refine ⟨_, h.ready.readdirAll_eq h.terminated, h.distinct.names_nodup, fun name => ?_⟩
    rw [mem_names, h.isSome_iff]

theorem crowdedDisk_terminated : crowdedDir.Terminated crowdedDisk.device := by
  intro i name hi hl
  rw [← hl.2]
  match i, hi with
  | 0, _ => decide
  | 1, _ => decide

/-- After "b" has been added for sector 8 it is found, and the two names are read. -/
theorem dir_is_map_crowded :
    ∃ fs, (DirCall.add ⟨[98], by decide⟩ 8).run 1 crowdedDisk = some (true, fs) ∧
    fs.dirLookup Mallocs.all.lookup 1 ⟨[98], by decide⟩ =
      (fs.inodeOpen 8).map (fun fs' => (some 8, fs')) ∧
    ∃ names, fs.readdirAll 1 (fs.dirRounds 1) 0 = some names ∧ names.Nodup := by
  have hsome : ((DirCall.add ⟨[98], by decide⟩ 8).run 1 crowdedDisk).map Prod.fst = some true := by
    decide +kernel
  obtain ⟨⟨r, fs⟩, hrun, hr⟩ := Option.map_eq_some_iff.mp hsome
  have hr : r = true := hr
  subst hr
  have hcalls : Runs (fun fs c fs' => DirCall.run 1 fs c.1 = some (c.2, fs'))
      (fun fs c => c.1.Undisturbed 1 crowdedDir fs) crowdedDisk
      [(.add ⟨[98], by decide⟩ 8, true)] fs := .cons trivial hrun (.nil fs)
  obtain ⟨-, hlookup, -, -, names, hnames, hnodup, -⟩ := dir_is_map crowdedDisk_ready
    crowdedDisk_distinct crowdedDisk_terminated hcalls
    (m := update (crowdedDir.find crowdedDisk.device) [98] (some 8)) rfl
  have hfound := hlookup ⟨[98], by decide⟩
  rw [update_self] at hfound
  exact ⟨fs, hrun, hfound, names, hnames, hnodup⟩

end Pintos
