import Pintos.Kernel.HashKeys
import Pintos.Lib.Runs
import Pintos.Vm.Frame

/-!
# The keys of the frame table (`vm/frame.c`)

`frame_less_than` says that one entry is less than another if both its address and its thread are.
Two keys are told apart by it only if the addresses and the threads are in the same order; for two
pages of one thread, or two threads with one address, neither is less, and the table takes them for
equal.

Where the keys are told apart the table is a set of pages: `get_user_page` adds one, `free_frame`
takes one away, `set_pinned` works on its own page's entry.
-/

namespace Pintos

open Lib FtEntry

/-- One of the keys is less than the other. -/
def Told (a b : Nat × Nat) : Prop := frameLessThan a b = true ∨ frameLessThan b a = true

instance (a b : Nat × Nat) : Decidable (Told a b) := inferInstanceAs (Decidable (_ ∨ _))

theorem Told.symm {a b : Nat × Nat} (h : Told a b) : Told b a := Or.symm h

theorem Told.ne {a b : Nat × Nat} (h : Told a b) : a ≠ b := by
  rintro rfl
  simp [Told, frameLessThan] at h

theorem same_self (entry : Nat → FtEntry) (i : Nat) :
    (frameFuncs entry).same (entry i).key i = true := same_of_thread_eq entry rfl

theorem same_eq_false {entry : Nat → FtEntry} {k : Nat × Nat} {i : Nat} (h : Told (entry i).key k) :
    (frameFuncs entry).same k i = false := by
  show (!frameLessThan (entry i).key k && !frameLessThan k (entry i).key) = false
  rcases h with h | h <;> simp [h]

theorem tellsApart_of_told {entry : Nat → FtEntry} {h : Hash Nat} {k : Nat × Nat}
    (hall : ∀ i ∈ hashElems h, (entry i).key = k ∨ Told (entry i).key k) :
    h.TellsApart (frameFuncs entry) k := by
  intro i hi hsame
  refine (hall i hi).resolve_right fun htold => ?_
  rw [same_eq_false htold] at hsame
  cases hsame

namespace FrameTable

/-- The entries are in the buckets of their keys, and no two have the same key. -/
structure Keyed (t : FrameTable) : Prop where
  sound : Hash.Sound (frameFuncs t.entry) t.ft
  nodup : ((hashElems t.ft).map fun i => (t.entry i).key).Nodup

theorem keyed_init : frameTableInit.Keyed := ⟨hashInit_sound, List.nodup_nil⟩

section Keyed

variable {t t' : FrameTable} {k : Nat × Nat} {i : Nat} {a : Bool}

theorem Keyed.eq_of_key (hk : t.Keyed) {j : Nat} (hi : i ∈ hashElems t.ft) (hj : j ∈ hashElems t.ft)
    (heq : (t.entry i).key = (t.entry j).key) : i = j :=
  List.inj_on_of_nodup_map hk.nodup hi hj heq

theorem Keyed.rest (hk : t.Keyed) {l : List Nat} (hperm : (hashElems t.ft).Perm (i :: l))
    (hi : (t.entry i).key = k) :
    (∀ j, j ∈ l ↔ j ∈ hashElems t.ft ∧ (t.entry j).key ≠ k) ∧
      (l.map fun j => (t.entry j).key).Nodup := by
  have hmap := (hperm.map fun j => (t.entry j).key).nodup_iff.mp hk.nodup
  rw [List.map_cons, List.nodup_cons, hi] at hmap
  refine ⟨fun j => ?_, hmap.2⟩
  rw [hperm.mem_iff, List.mem_cons]
  constructor
  · intro hj
    refine ⟨.inr hj, fun heq => hmap.1 ?_⟩
    exact List.mem_map.mpr ⟨j, hj, heq⟩
  · rintro ⟨rfl | hj, hne⟩
    · exact absurd hi hne
    · exact hj

theorem Keyed.find_eq (hk : t.Keyed)
    (hall : ∀ i ∈ hashElems t.ft, (t.entry i).key = k ∨ Told (t.entry i).key k) :
    (∃ i ∈ hashElems t.ft, (t.entry i).key = k ∧ t.find k.1 k.2 = some i) ∨
      (∀ i ∈ hashElems t.ft, (t.entry i).key ≠ k) ∧ t.find k.1 k.2 = none := by
  by_cases hex : ∃ i ∈ hashElems t.ft, (t.entry i).key = k
  · obtain ⟨i, hi, rfl⟩ := hex
    refine .inl ⟨i, hi, rfl, ?_⟩
    exact hk.sound.hashFind_of_mem (tellsApart_of_told hall)
      (fun j hj heq => hk.eq_of_key hj hi heq) hi rfl (same_self t.entry i)
  · have hno : ∀ i ∈ hashElems t.ft, (t.entry i).key ≠ k := fun i hi heq => hex ⟨i, hi, heq⟩
    exact .inr ⟨hno, hashFind_eq_none (tellsApart_of_told hall) hno⟩

theorem key_insert {th va : Nat} : ((t.insert a th va).entry t.next).key = (th, va) := by
  simp [insert, key]

theorem entry_insert {th va : Nat} (hi : i ∈ hashElems t.ft) :
    (t.insert a th va).entry i = t.entry i :=
  Function.update_of_ne (Nat.ne_of_lt (t.allocated i hi)) ..

theorem Keyed.insert_elems (hk : t.Keyed) {th va : Nat}
    (hall : ∀ i ∈ hashElems t.ft, (t.entry i).key = (th, va) ∨ Told (t.entry i).key (th, va)) :
    ∃ l, (hashElems (t.insert a th va).ft).Perm (t.next :: l) ∧
      (∀ j, j ∈ l ↔ j ∈ hashElems t.ft ∧ (t.entry j).key ≠ (th, va)) ∧
      (l.map fun j => (t.entry j).key).Nodup := by
  -- the search sees the same keys with the new entry allocated
  have hsearch : hashFind (frameFuncs (t.insert a th va).entry) t.ft
      ((frameFuncs (t.insert a th va).entry).key t.next) = t.find th va := by
    have hkey : (frameFuncs (t.insert a th va).entry).key t.next = (th, va) := key_insert
    rw [hkey]
    exact hashFind_congr rfl rfl fun i hi => congrArg key (entry_insert hi)
  rcases hk.find_eq hall with ⟨i, hi, hkey, hsome⟩ | ⟨hno, hnone⟩
  · obtain ⟨l, hperm, hperm'⟩ := @hashElems_hashReplace_some _ _ _ _ _ a _ (hsearch.trans hsome)
    exact ⟨l, hperm', hk.rest hperm hkey⟩
  · refine ⟨hashElems t.ft, hashElems_hashReplace_none (hsearch.trans hnone), fun j => ?_, hk.nodup⟩
    exact ⟨fun hj => ⟨hj, hno j hj⟩, And.left⟩

theorem Keyed.insert (hk : t.Keyed) {th va : Nat}
    (hall : ∀ i ∈ hashElems t.ft, (t.entry i).key = (th, va) ∨ Told (t.entry i).key (th, va)) :
    (t.insert a th va).Keyed := by
  obtain ⟨l, hperm, hmem, hnodup⟩ := @Keyed.insert_elems t a hk th va hall
  constructor
  · refine Hash.Sound.hashReplace (hk.sound.congr rfl fun i hi => ?_)
    exact congrArg key (entry_insert hi)
  · have hkeys : (l.map fun j => ((t.insert a th va).entry j).key) =
        l.map fun j => (t.entry j).key :=
      List.map_congr_left fun j hj => congrArg key (entry_insert ((hmem j).mp hj).1)
    rw [(hperm.map fun j => ((t.insert a th va).entry j).key).nodup_iff, List.map_cons,
      List.nodup_cons, hkeys, key_insert]
    refine ⟨fun hin => ?_, hnodup⟩
    obtain ⟨j, hj, heq⟩ := List.mem_map.mp hin
    exact ((hmem j).mp hj).2 heq

theorem Keyed.free (hk : t.Keyed) {th va : Nat}
    (hall : ∀ i ∈ hashElems t.ft, (t.entry i).key = (th, va) ∨ Told (t.entry i).key (th, va)) :
    ∃ t', t.free a th va = some t' ∧ t'.Keyed ∧ t'.entry = t.entry ∧
      ∀ j, j ∈ hashElems t'.ft ↔ j ∈ hashElems t.ft ∧ (t.entry j).key ≠ (th, va) := by
  rcases hk.find_eq hall with ⟨i, hi, hkey, hsome⟩ | ⟨hno, hnone⟩
  · have hfound : hashFind (frameFuncs t.entry) t.ft (t.entry i).key = some i := by
      rw [hkey]
      exact hsome
    have hperm := @hashElems_hashDelete _ _ _ _ _ _ a hfound
    obtain ⟨hmem, hnodup⟩ := hk.rest hperm hkey
    have hout : i ∉ hashElems (hashDelete (frameFuncs t.entry) a t.ft (t.entry i).key).2 :=
      fun hin => ((hmem i).mp hin).2 hkey
    refine ⟨{ t with
        ft := (hashDelete (frameFuncs t.entry) a t.ft (t.entry i).key).2
        allocated := fun j hj => t.allocated j (mem_hashDelete hj) }, ?_,
      ⟨hk.sound.hashDelete hfound, hnodup⟩, rfl, hmem⟩
    simp only [FrameTable.free, hsome]
    rw [if_neg hout]
  · refine ⟨t, ?_, hk, rfl, fun j => ⟨fun hj => ⟨hj, hno j hj⟩, And.left⟩⟩
    simp only [FrameTable.free, hnone]

theorem Keyed.setPin (hk : t.Keyed) (n : Nat) : (t.setPin i n).Keyed := by
  have hkey : ∀ j, ((t.setPin i n).entry j).key = (t.entry j).key := key_setPin t i n
  refine ⟨hk.sound.congr rfl fun j _ => hkey j, ?_⟩
  simp only [hkey]
  exact hk.nodup

end Keyed

/-! ## Calls -/

/-- The calls of `get_user_page`, `free_frame` and `set_pinned`, for a page. -/
inductive PageOp
  | getUserPage (alloc : Bool) (thread vaddr : Nat)
  | freeFrame (alloc : Bool) (thread vaddr : Nat)
  | setPinned (thread vaddr : Nat) (set : Bool)
  deriving DecidableEq, Repr

/-- The page of a call. -/
def PageOp.page : PageOp → Nat × Nat
  | .getUserPage _ thread vaddr => (thread, vaddr)
  | .freeFrame _ thread vaddr => (thread, vaddr)
  | .setPinned thread vaddr _ => (thread, vaddr)

/-- The table after a call; `none` if the table is corrupted, or if `set_pinned` has to wait. -/
def pageStep (t : FrameTable) : PageOp → Option FrameTable
  | .getUserPage alloc thread vaddr => some (t.insert alloc thread vaddr)
  | .freeFrame alloc thread vaddr => t.free alloc thread vaddr
  | .setPinned thread vaddr set =>
    match t.find thread vaddr with
    | none => some t
    | some i =>
      if set then
        if 0 < (t.entry i).pinSema then some (t.tryDown i) else none
      else some ((t.tryDown i).up i)

/-- The pages that have been added and not freed. -/
def pagesAfter (pages : Finset (Nat × Nat)) : PageOp → Finset (Nat × Nat)
  | .getUserPage _ thread vaddr => Insert.insert (thread, vaddr) pages
  | .freeFrame _ thread vaddr => pages.erase (thread, vaddr)
  | .setPinned _ _ _ => pages

/-- The page of the call is told apart from every page in the table that is another one. -/
def Distinct (t : FrameTable) (op : PageOp) : Prop :=
  ∀ i ∈ hashElems t.ft, (t.entry i).key = op.page ∨ Told (t.entry i).key op.page

instance (t : FrameTable) (op : PageOp) : Decidable (t.Distinct op) :=
  inferInstanceAs (Decidable (∀ i ∈ hashElems t.ft, _))

/-- The entries of other pages stay in the table as they are. -/
def KeepsOthers (t : FrameTable) (op : PageOp) (t' : FrameTable) : Prop :=
  ∀ i ∈ hashElems t.ft, (t.entry i).key ≠ op.page → i ∈ hashElems t'.ft ∧ t'.entry i = t.entry i

/-- The table has one entry for each of the pages. -/
def OneEach (t : FrameTable) (pages : Finset (Nat × Nat)) : Prop :=
  (FrameTableOps.keys t).Nodup ∧ ∀ k, k ∈ FrameTableOps.keys t ↔ k ∈ pages

section Steps

variable {t t' : FrameTable} {op : PageOp} {pages : Finset (Nat × Nat)}

theorem Keyed.oneEach (hk : t.Keyed) (h : ∀ k, k ∈ FrameTableOps.keys t ↔ k ∈ pages) :
    t.OneEach pages := by
  refine ⟨?_, h⟩
  show (((hashElems t.ft).map t.entry).map key).Nodup
  rw [List.map_map]
  exact hk.nodup

theorem pinStep (hk : t.Keyed) (hd : t.Distinct op) {i n : Nat}
    (hi : t.find op.page.1 op.page.2 = some i) :
    (t.setPin i n).Keyed ∧ t.KeepsOthers op (t.setPin i n) ∧
      ∀ k, k ∈ FrameTableOps.keys (t.setPin i n) ↔ k ∈ FrameTableOps.keys t := by
  refine ⟨hk.setPin n, fun j hj hne => ⟨hj, ?_⟩, fun k => ?_⟩
  · have hji : j ≠ i := by
      rintro rfl
      rcases hk.find_eq hd with ⟨i', -, hkey, hsome⟩ | ⟨-, hnone⟩
      · rw [hsome] at hi
        cases hi
        exact hne hkey
      · rw [hnone] at hi
        cases hi
    exact Function.update_of_ne hji ..
  · rw [mem_keys, mem_keys]
    refine exists_congr fun j => and_congr_right fun _ => ?_
    rw [key_setPin]

theorem Keyed.step (hk : t.Keyed) (hd : t.Distinct op) (h : t.pageStep op = some t') :
    t'.Keyed ∧ t.KeepsOthers op t' ∧
      ((∀ k, k ∈ FrameTableOps.keys t ↔ k ∈ pages) →
        ∀ k, k ∈ FrameTableOps.keys t' ↔ k ∈ pagesAfter pages op) := by
  cases op with
  | getUserPage a th va =>
    cases h
    obtain ⟨l, hperm, hmem, -⟩ := @Keyed.insert_elems t a hk th va hd
    refine ⟨hk.insert hd, fun i hi hne => ⟨?_, entry_insert hi⟩, fun hpages k => ?_⟩
    · exact hperm.mem_iff.mpr (List.mem_cons_of_mem _ ((hmem i).mpr ⟨hi, hne⟩))
    · rw [pagesAfter, Finset.mem_insert, ← hpages, mem_keys, mem_keys]
      constructor
      · rintro ⟨i, hi, rfl⟩
        rcases List.mem_cons.mp (hperm.mem_iff.mp hi) with rfl | hl
        · exact .inl key_insert
        · have hold := ((hmem i).mp hl).1
          exact .inr ⟨i, hold, by rw [entry_insert hold]⟩
      · rintro (rfl | ⟨i, hi, rfl⟩)
        · exact ⟨t.next, hperm.mem_iff.mpr List.mem_cons_self, key_insert⟩
        · by_cases heq : (t.entry i).key = (th, va)
          · exact ⟨t.next, hperm.mem_iff.mpr List.mem_cons_self, key_insert.trans heq.symm⟩
          · refine ⟨i, ?_, by rw [entry_insert hi]⟩
            exact hperm.mem_iff.mpr (List.mem_cons_of_mem _ ((hmem i).mpr ⟨hi, heq⟩))
  | freeFrame a th va =>
    obtain ⟨t₁, hfree, hk', hentry, hmem⟩ := @Keyed.free t a hk th va hd
    have heq : t₁ = t' := Option.some.inj (hfree.symm.trans h)
    subst heq
    refine ⟨hk', fun i hi hne => ⟨(hmem i).mpr ⟨hi, hne⟩, by rw [hentry]⟩, fun hpages k => ?_⟩
    rw [pagesAfter, Finset.mem_erase, ← hpages, mem_keys, mem_keys, hentry]
    constructor
    · rintro ⟨i, hi, rfl⟩
      exact ⟨((hmem i).mp hi).2, i, ((hmem i).mp hi).1, rfl⟩
    · rintro ⟨hne, i, hi, rfl⟩
      exact ⟨i, (hmem i).mpr ⟨hi, hne⟩, rfl⟩
  | setPinned th va set =>
    simp only [pageStep] at h
    split at h
    · cases h
      exact ⟨hk, fun i hi _ => ⟨hi, rfl⟩, fun hpages => hpages⟩
    · next i hi =>
      have hup : ∀ n, (t.setPin i n).Keyed ∧
          t.KeepsOthers (.setPinned th va set) (t.setPin i n) ∧
          ((∀ k, k ∈ FrameTableOps.keys t ↔ k ∈ pages) →
            ∀ k, k ∈ FrameTableOps.keys (t.setPin i n) ↔ k ∈ pages) := by
        intro n
        obtain ⟨hk', hothers, hkeys⟩ := @pinStep t (.setPinned th va set) hk hd i n hi
        exact ⟨hk', hothers, fun hpages k => (hkeys k).trans (hpages k)⟩
      split at h
      · split at h
        · cases h
          exact hup _
        · cases h
      · cases h
        have hset : (t.tryDown i).up i = t.setPin i ((t.entry i).pinSema - 1 + 1) := by
          simp [tryDown, up, FrameTable.setPin]
        rw [hset]
        exact hup _

end Steps

end FrameTable

open FrameTable in
/-- **Which pages the frame table tells apart.** What the table takes for equal is equal exactly for
keys that are equal, or one of which is less than the other in both fields. In every run of calls
whose pages are told apart from the others in the table, the table has one entry for each page that
was added and not freed, `free_frame` corrupts nothing, and no call touches the entry of another
page. -/
theorem frame_table_tells_apart {t₀ t : FrameTable} {ops : List PageOp}
    {pages : Finset (Nat × Nat)} (hk₀ : t₀.Keyed) (hone : t₀.OneEach pages)
    (hrun : Runs (fun t op t' => t.pageStep op = some t') Distinct t₀ ops t) :
    (∀ (entry : Nat → FtEntry) (k : Nat × Nat) (i : Nat),
      ((frameFuncs entry).same k i = true → (entry i).vaddr = k.2 ∧ (entry i).thread = k.1) ↔
        (entry i).vaddr = k.2 ∧ (entry i).thread = k.1 ∨
        (entry i).vaddr < k.2 ∧ (entry i).thread < k.1 ∨
        k.2 < (entry i).vaddr ∧ k.1 < (entry i).thread) ∧
    t.OneEach (ops.foldl pagesAfter pages) ∧
    ∀ op, t.Distinct op →
      (∀ alloc, op = .freeFrame alloc op.page.1 op.page.2 → (t.pageStep op).isSome = true) ∧
      ∀ t', t.pageStep op = some t' → t.KeepsOthers op t' := by
  have hinv : t.Keyed ∧ ∀ k, k ∈ FrameTableOps.keys t ↔ k ∈ ops.foldl pagesAfter pages := by
    refine @Runs.simulate _ _ _ _ _ _ _ _
      (fun t pages => t.Keyed ∧ ∀ k, k ∈ FrameTableOps.keys t ↔ k ∈ pages) pagesAfter ?_ hrun pages
      ⟨hk₀, hone.2⟩
    rintro t₁ pages₁ op t₂ ⟨hk, hpages⟩ hd hstep
    obtain ⟨hk', -, hafter⟩ := hk.step hd hstep
    exact ⟨hk', hafter hpages⟩
  refine ⟨?_, hinv.1.oneEach hinv.2, ?_⟩
  · intro entry k i
    simp only [HashFuncs.same, frameFuncs, frameLessThan, key, Bool.and_eq_true,
      Bool.not_eq_true', Bool.and_eq_false_iff, decide_eq_false_iff_not]
    omega
  · intro op hd
    refine ⟨fun alloc hop => ?_, fun t' hstep => ?_⟩
    · obtain ⟨t', hfree, -⟩ := @Keyed.free t alloc hinv.1 _ _ hd
      rw [hop]
      exact Option.isSome_iff_exists.mpr ⟨t', hfree⟩
    · exact (@Keyed.step _ _ _ ∅ hinv.1 hd hstep).2.1

/-- Pages of two threads, in the order of the threads; the first is freed. -/
def twoPages : List FrameTable.PageOp :=
  [.getUserPage true 0xc0100000 0x8048000, .getUserPage true 0xc0101000 0x8049000,
    .freeFrame true 0xc0100000 0x8048000]

open FrameTable in
theorem frame_table_tells_apart_twoPages :
    (twoPages.foldl (after pageStep) frameTableInit).OneEach {(0xc0101000, 0x8049000)} := by
  have hrun : Runs (fun t op t' => t.pageStep op = some t') Distinct frameTableInit twoPages
      (twoPages.foldl (after pageStep) frameTableInit) :=
    runs_of_allows (fun t op => decide (t.Distinct op)) (fun _ _ h => of_decide_eq_true h)
      (by decide +kernel)
  have hempty : frameTableInit.OneEach ∅ := keyed_init.oneEach fun k => iff_of_false nofun nofun
  have hpages : twoPages.foldl pagesAfter ∅ = {(0xc0101000, 0x8049000)} := by decide +kernel
  exact hpages ▸ (frame_table_tells_apart keyed_init hempty hrun).2.1

open FrameTable in
/-- Two pages of one thread are equal for the table, and here in one bucket: the entry of the second
takes the place of the first one's. -/
theorem page_of_same_thread_replaced :
    (frameFuncs fun _ => ⟨0xc0100000, 0x8048000, 1⟩).same (0xc0100000, 0x8049000) 0 = true ∧
      FrameTableOps.keys (frameTableInit.insert true 0xc0100000 0x8048000) =
        [(0xc0100000, 0x8048000)] ∧
      FrameTableOps.keys ((frameTableInit.insert true 0xc0100000 0x8048000).insert true 0xc0100000
        0x8049000) = [(0xc0100000, 0x8049000)] := by
  decide +kernel

end Pintos
