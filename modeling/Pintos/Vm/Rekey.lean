import Pintos.Vm.FrameKeys
import Pintos.Vm.Steps

/-!
# The new key of an evicted entry (`vm/frame.c`)

`evict_page` takes an entry out of the table, gives it the key of the new page and puts it back. The
`e` that it takes out and puts back is the first element of the table, for the `e` of the search
loop hides it; the entry whose key changes is the one that the search chose. If they differ, the
chosen entry stays in the bucket of its old key, unless `hash_replace` moves all elements to a new
bucket array.
-/

namespace Pintos

open Lib List

namespace FrameTable

/-- `rekey`, with what `malloc` answers in `hash_delete` and what it answers in `hash_replace`. -/
def rekeyWith (allocDelete allocReplace : Bool) (t : FrameTable) (s : Selection)
    (thread vaddr : Nat) : Option FrameTable :=
  let del := (hashDelete (frameFuncs t.entry) allocDelete t.ft (t.entry s.first).key).2
  let entry := Function.update t.entry s.chosen
    { t.entry s.chosen with thread := thread, vaddr := vaddr }
  let ft := hashReplace (frameFuncs entry) allocReplace del s.first
  if h : s.first < t.next ∧ (hashElems ft).count s.first = 1 then
    some
      { t with
        ft := ft
        entry := entry
        allocated := fun i hi => by
          rcases mem_hashReplace hi with rfl | hi
          · exact h.1
          · exact t.allocated i (mem_hashDelete hi) }
  else none

theorem rekey_eq_rekeyWith (a : Bool) (t : FrameTable) (s : Selection) (thread vaddr : Nat) :
    t.rekey a s thread vaddr = t.rekeyWith a a s thread vaddr := rfl

/-- The entries are in the buckets of their keys, some are pinned and some are not, and their keys
and the key of the new page are told apart from each other. -/
structure Evictable (t : FrameTable) (key : Nat × Nat) : Prop where
  sound : Hash.Sound (frameFuncs t.entry) t.ft
  binary : ∀ i ∈ hashElems t.ft, (t.entry i).pinSema ≤ 1
  apart : (hashElems t.ft).Pairwise fun i j => Told (t.entry i).key (t.entry j).key
  fresh : ∀ i ∈ hashElems t.ft, Told (t.entry i).key key
  unpinned : ∃ i ∈ hashElems t.ft, 0 < (t.entry i).pinSema

/-- The table has the same entries, of which `i` has the new key and is pinned and the others are as
they were, and each is in the bucket of its key. -/
structure Rekeyed (t : FrameTable) (i : Nat) (key : Nat × Nat) (t' : FrameTable) : Prop where
  elems : (hashElems t'.ft).Perm (hashElems t.ft)
  chosen : t'.entry i = ⟨key.1, key.2, 0⟩
  others : ∀ j ∈ hashElems t.ft, j ≠ i → t'.entry j = t.entry j
  placed : ∀ b, ∀ j ∈ t'.ft.buckets b, b = findBucket (frameFuncs t'.entry) t'.ft (t'.entry j).key

/-- The size of the bucket array after `hash_delete`. -/
def bucketsAfterDelete (alloc : Bool) (t : FrameTable) : Nat :=
  if alloc then newBucketCnt (t.ft.elemCnt - 1) else t.ft.bucketCnt

/-- The chosen entry is the first element, or `hash_replace` moves the elements, or the new key has
the bucket that the old one has. -/
def RekeysWell (allocDelete allocReplace : Bool) (t : FrameTable) (s : Selection)
    (key : Nat × Nat) : Prop :=
  s.chosen = s.first ∨
  (allocReplace = true ∧ newBucketCnt t.ft.elemCnt ≠ t.bucketsAfterDelete allocDelete) ∨
  frameHash key &&& (t.bucketsAfterDelete allocDelete - 1) =
    frameHash (t.entry s.chosen).key &&& (t.bucketsAfterDelete allocDelete - 1)

section Rekey

variable {t : FrameTable} {key : Nat × Nat} {s : Selection} {a₁ a₂ : Bool}

theorem Evictable.told (h : t.Evictable key) {i j : Nat} (hi : i ∈ hashElems t.ft)
    (hj : j ∈ hashElems t.ft) (hne : i ≠ j) : Told (t.entry i).key (t.entry j).key := by
  have : Std.Symm fun i j => Told (t.entry i).key (t.entry j).key := ⟨fun _ _ => Told.symm⟩
  exact h.apart.forall hi hj hne

theorem Evictable.keyed (h : t.Evictable key) : t.Keyed := by
  refine ⟨h.sound, ?_⟩
  rw [nodup_iff_pairwise_ne, pairwise_map]
  exact h.apart.imp Told.ne

end Rekey

/-! ## The table while the first element is out -/

/-- What `evict_page` has before its `hash_replace`: the table `del` without the first element, and
the entries, with the new key in the chosen one. -/
structure Taken (t : FrameTable) (s : Selection) (key : Nat × Nat) (a₁ : Bool) (del : Hash Nat)
    (entry : Nat → FtEntry) : Prop where
  first : s.first ∈ hashElems t.ft
  chosen : s.chosen ∈ hashElems t.ft
  perm : (hashElems t.ft).Perm (s.first :: hashElems del)
  sound : Hash.Sound (frameFuncs t.entry) del
  bucketCnt : del.bucketCnt = t.bucketsAfterDelete a₁
  elemCnt : del.elemCnt + 1 = t.ft.elemCnt
  entry_chosen : entry s.chosen = ⟨key.1, key.2, 0⟩
  others : ∀ j, j ≠ s.chosen → entry j = t.entry j

section Taken

variable {t t₁ : FrameTable} {key : Nat × Nat} {s : Selection} {a₁ a₂ : Bool} {del : Hash Nat}
  {entry : Nat → FtEntry}

theorem Evictable.taken (h : t.Evictable key) (hsel : t.select = some (s, t₁)) :
    t.Taken s key a₁ (hashDelete (frameFuncs t₁.entry) a₁ t₁.ft (t₁.entry s.first).key).2
      (Function.update t₁.entry s.chosen
        { t₁.entry s.chosen with thread := key.1, vaddr := key.2 }) := by
  obtain ⟨hhead, hchosen, hpos, rfl⟩ := select_some hsel
  have hfirst : s.first ∈ hashElems t.ft := mem_of_mem_head? hhead
  have hkey : ∀ i, ((t.tryDown s.chosen).entry i).key = (t.entry i).key := key_setPin t _ _
  -- the first element is found in its own bucket
  have hfound : hashFind (frameFuncs (t.tryDown s.chosen).entry) t.ft
      ((t.tryDown s.chosen).entry s.first).key = some s.first := by
    have hsearch : hashFind (frameFuncs (t.tryDown s.chosen).entry) t.ft (t.entry s.first).key =
        hashFind (frameFuncs t.entry) t.ft (t.entry s.first).key :=
      hashFind_congr rfl rfl fun i _ => hkey i
    rw [hkey, hsearch]
    refine h.sound.hashFind_of_mem (tellsApart_of_told fun i hi => ?_)
      (fun j hj heq => h.keyed.eq_of_key hj hfirst heq) hfirst rfl (same_self t.entry _)
    by_cases heq : i = s.first
    · exact .inl (heq ▸ rfl)
    · exact .inr (h.told hi hfirst heq)
  have hperm := @hashElems_hashDelete _ _ _ _ _ _ a₁ hfound
  have hsound : Hash.Sound (frameFuncs (t.tryDown s.chosen).entry) t.ft :=
    h.sound.congr rfl fun i _ => hkey i
  have hcnt : 0 < t.ft.elemCnt := by
    rw [h.sound.count]
    exact length_pos_of_mem hfirst
  refine
    { first := hfirst
      chosen := hchosen
      perm := hperm
      sound := (hsound.hashDelete hfound).congr rfl fun i _ => (hkey i).symm
      bucketCnt := ?_
      elemCnt := ?_
      entry_chosen := ?_
      others := fun j hj => ?_ }
  · show (hashDelete (frameFuncs _) a₁ t.ft _).2.bucketCnt = _
    rw [hashDelete_of_some hfound, rehash_bucketCnt]
    rfl
  · show (hashDelete (frameFuncs _) a₁ t.ft _).2.elemCnt + 1 = _
    rw [hashDelete_of_some hfound, rehash_elemCnt]
    show t.ft.elemCnt - 1 + 1 = t.ft.elemCnt
    omega
  · have hbinary := h.binary s.chosen hchosen
    have hzero : (t.entry s.chosen).pinSema - 1 = 0 := by omega
    rw [Function.update_self]
    simp [tryDown, setPin, hzero]
  · rw [Function.update_of_ne hj]
    exact Function.update_of_ne hj ..

theorem Taken.find_none (h : t.Evictable key) (ht : t.Taken s key a₁ del entry) :
    hashFind (frameFuncs entry) del (entry s.first).key = none := by
  have hmem : ∀ i ∈ hashElems del, i ∈ hashElems t.ft ∧ (t.entry i).key ≠ (t.entry s.first).key :=
    fun i hi => ((h.keyed.rest ht.perm rfl).1 i).mp hi
  have hchosen : (entry s.chosen).key = key := by rw [ht.entry_chosen]; rfl
  have htold : ∀ i ∈ hashElems del, Told (entry i).key (entry s.first).key := by
    intro i hi
    obtain ⟨hit, hne⟩ := hmem i hi
    have hif : i ≠ s.first := fun heq => hne (heq ▸ rfl)
    by_cases hfc : s.first = s.chosen
    · have hic : i ≠ s.chosen := hfc ▸ hif
      rw [hfc, hchosen, ht.others i hic]
      exact h.fresh i hit
    · rw [ht.others _ hfc]
      by_cases hic : i = s.chosen
      · rw [hic, hchosen]
        exact (h.fresh _ ht.first).symm
      · rw [ht.others _ hic]
        exact h.told hit ht.first hif
  exact hashFind_eq_none (tellsApart_of_told fun i hi => .inr (htold i hi)) fun i hi =>
    (htold i hi).ne

theorem Taken.placed_iff (h : t.Evictable key) (ht : t.Taken s key a₁ del entry) :
    (∀ b, ∀ j ∈ (insertElem del (findBucket (frameFuncs entry) del (entry s.first).key)
        s.first).buckets b, b = findBucket (frameFuncs entry) del (entry j).key) ↔
      s.chosen = s.first ∨
      frameHash key &&& (del.bucketCnt - 1) =
        frameHash (t.entry s.chosen).key &&& (del.bucketCnt - 1) := by
  have hchosen : (entry s.chosen).key = key := by rw [ht.entry_chosen]; rfl
  by_cases hfc : s.chosen = s.first
  · refine iff_of_true ?_ (.inl hfc)
    have hsound : Hash.Sound (frameFuncs entry) del := by
      refine ht.sound.congr rfl fun i hi => congrArg FtEntry.key (ht.others i ?_)
      rintro rfl
      exact (((h.keyed.rest ht.perm rfl).1 _).mp hi).2 (hfc ▸ rfl)
    exact (Hash.Sound.insertElem (x := s.first) hsound).placed
  · rw [or_iff_right hfc]
    have hfirst : (entry s.first).key = (t.entry s.first).key := by
      rw [ht.others _ (Ne.symm hfc)]
    -- under the old keys every element is where it belongs
    have hold := (Hash.Sound.insertElem (x := s.first) ht.sound).placed
    have hsame : findBucket (frameFuncs entry) del (entry s.first).key =
        findBucket (frameFuncs t.entry) del (t.entry s.first).key := by
      rw [hfirst]
      rfl
    rw [hsame]
    have hmem : s.chosen ∈ hashElems del :=
      (mem_cons.mp (ht.perm.mem_iff.mp ht.chosen)).resolve_left hfc
    obtain ⟨b, hb, hbucket⟩ := mem_hashElems.mp
      ((hashElems_insertElem (findBucket_lt (frameFuncs t.entry) del _)).mem_iff.mpr
        (mem_cons_of_mem s.first hmem))
    have hwas : b = frameHash (t.entry s.chosen).key &&& (del.bucketCnt - 1) := hold b _ hbucket
    constructor
    · intro hall
      have hnow := hall b _ hbucket
      rw [hchosen] at hnow
      exact hnow.symm.trans hwas
    · intro heq b' j hj
      by_cases hjc : j = s.chosen
      · subst hjc
        rw [hchosen]
        exact (hold b' _ hj).trans heq.symm
      · rw [ht.others j hjc]
        exact hold b' j hj

theorem Taken.replaced (h : t.Evictable key) (ht : t.Taken s key a₁ del entry) :
    (hashElems (hashReplace (frameFuncs entry) a₂ del s.first)).Perm (hashElems t.ft) ∧
    ((∀ b, ∀ j ∈ (hashReplace (frameFuncs entry) a₂ del s.first).buckets b,
        b = findBucket (frameFuncs entry) (hashReplace (frameFuncs entry) a₂ del s.first)
          (entry j).key) ↔
      t.RekeysWell a₁ a₂ s key) := by
  have hnone := ht.find_none h
  refine ⟨(hashElems_hashReplace_none hnone).trans ht.perm.symm, ?_⟩
  rw [hashReplace_of_none hnone, RekeysWell, ← ht.bucketCnt, ← ht.elemCnt]
  by_cases hmoves : a₂ = true ∧ newBucketCnt (del.elemCnt + 1) ≠ del.bucketCnt
  · refine iff_of_true ?_ (.inr (.inl hmoves))
    exact rehash_placed hmoves.2 hmoves.1
  · -- `rehash` leaves the bucket array as it is
    have hstay : rehash (frameFuncs entry) a₂ (insertElem del
          (findBucket (frameFuncs entry) del ((frameFuncs entry).key s.first)) s.first) =
        insertElem del (findBucket (frameFuncs entry) del (entry s.first).key) s.first := by
      unfold rehash
      split
      · rfl
      · next hne => exact if_neg fun ha => hmoves ⟨ha, hne⟩
    have hplaced := ht.placed_iff h
    rw [or_iff_right hmoves, ← hplaced, hstay]
    exact Iff.rfl

end Taken

theorem Evictable.select {t : FrameTable} {key : Nat × Nat} (h : t.Evictable key) :
    ∃ s t₁, t.select = some (s, t₁) := by
  cases hsel : t.select with
  | none =>
    obtain ⟨i, hi, hpos⟩ := h.unpinned
    exact absurd (select_eq_none.mp hsel i hi) (Nat.ne_of_gt hpos)
  | some c => exact ⟨c.1, c.2, rfl⟩

theorem Evictable.rekeyWith {t t₁ : FrameTable} {key : Nat × Nat} {s : Selection} (a₁ a₂ : Bool)
    (h : t.Evictable key) (hsel : t.select = some (s, t₁)) :
    ∃ t', t₁.rekeyWith a₁ a₂ s key.1 key.2 = some t' ∧
      (t.Rekeyed s.chosen key t' ↔ t.RekeysWell a₁ a₂ s key) := by
  have ht := @Evictable.taken t t₁ key s a₁ h hsel
  obtain ⟨hperm, hplaced⟩ := @Taken.replaced t key s a₁ a₂ _ _ h ht
  have hnodup : (hashElems t.ft).Nodup := List.Nodup.of_map _ h.keyed.nodup
  have hcount := count_eq_one_of_mem (hperm.nodup_iff.mpr hnodup) (hperm.mem_iff.mpr ht.first)
  have hlt : s.first < t₁.next := by
    obtain ⟨-, -, -, rfl⟩ := select_some hsel
    exact t.allocated _ ht.first
  refine ⟨_, dif_pos ⟨hlt, hcount⟩, ?_⟩
  constructor
  · intro hr
    exact hplaced.mp hr.placed
  · intro hw
    exact ⟨hperm, ht.entry_chosen, fun j _ hne => ht.others j hne, hplaced.mpr hw⟩

end FrameTable

open FrameTable Vm in
/-- For a frame table with an entry that is not pinned and all keys told apart, `evict_page` chooses
an entry and puts the first element back, and returns the frame that was mapped at the chosen
entry's old key. Exactly the chosen entry has got the new key and all are in the buckets of their
keys if and only if the chosen entry is the first element, or `hash_replace` moved all elements, or
the new key has the bucket of the old one. -/
theorem evictPage_rekeys_iff (vm : Vm FrameTable) (t newAddr : Nat) (a₁ a₂ : Bool)
    (h : vm.ft.Evictable (t, newAddr)) :
    ∃ s ft ft', vm.ft.select = some (s, ft) ∧ 0 < (vm.ft.entry s.chosen).pinSema ∧
      ft.rekeyWith a₁ a₂ s t newAddr = some ft' ∧
      (∀ a r vm', a.rehash = a₁ → a₁ = a₂ → vm.evictPage a t newAddr = .ok (r, vm') →
        vm'.ft = ft' ∧
        r = if (vm.pte (vm.ft.entry s.chosen).thread (vm.ft.entry s.chosen).vaddr).present
          then some (vm.pte (vm.ft.entry s.chosen).thread (vm.ft.entry s.chosen).vaddr).frame
          else none) ∧
      (vm.ft.Rekeyed s.chosen (t, newAddr) ft' ↔ vm.ft.RekeysWell a₁ a₂ s (t, newAddr)) := by
  obtain ⟨s, ft, hsel⟩ := h.select
  obtain ⟨ft', hkey, hiff⟩ := h.rekeyWith a₁ a₂ hsel
  obtain ⟨-, -, hpos, hdown⟩ := select_some hsel
  refine ⟨s, ft, ft', hsel, hpos, hkey, fun a r vm' ha₁ ha₂ hev => ?_, hiff⟩
  obtain ⟨s', ft₁, hsel', hkey', -, hr⟩ := evictPage_ok hev
  rw [show FrameTableOps.select vm.ft = vm.ft.select from rfl, hsel] at hsel'
  cases hsel'
  constructor
  · have hsame : ft.rekeyWith a₁ a₂ s t newAddr = some vm'.ft := by
      rw [← ha₂, ← ha₁]
      exact hkey'
    rw [hkey] at hsame
    exact (Option.some.inj hsame).symm
  · have hold : (ft.entry s.chosen).key = (vm.ft.entry s.chosen).key := by
      rw [hdown]
      exact key_setPin ..
    obtain ⟨hthread, hvaddr⟩ := Prod.mk.inj hold
    rw [← hthread, ← hvaddr]
    exact hr

/-- The entries of two threads' pages, both in bucket 1: entry 1 is the first element. -/
def twoEntries : FrameTable :=
  (frameTableInit.insert true 0xc0100000 0x8048000).insert true 0xc0101000 0x8049000

theorem keyed_twoEntries : twoEntries.Keyed :=
  (FrameTable.keyed_init.insert (by decide +kernel)).insert (by decide +kernel)

theorem evictable_twoEntries : twoEntries.Evictable (0xc0108000, 0x8050000) where
  sound := keyed_twoEntries.sound
  binary := by decide +kernel
  apart := by decide +kernel
  fresh := by decide +kernel
  unpinned := by decide +kernel

/-- Neither entry is pinned, so that the first is chosen. -/
theorem evictPage_rekeys_iff_first :
    ∃ s ft ft', twoEntries.select = some (s, ft) ∧
      ft.rekeyWith true true s 0xc0108000 0x8050000 = some ft' ∧
      twoEntries.Rekeyed s.chosen (0xc0108000, 0x8050000) ft' := by
  obtain ⟨s, ft, ft', hsel, -, hkey, -, hiff⟩ :=
    evictPage_rekeys_iff { Vm.bootWith 1 16 Vm.textDisk with ft := twoEntries } 0xc0108000 0x8050000
      true true evictable_twoEntries
  have hfirst : twoEntries.select.any (fun c => c.1.chosen == c.1.first) = true := by decide +kernel
  have hsel' : twoEntries.select = some (s, ft) := hsel
  rw [hsel'] at hfirst
  exact ⟨s, ft, ft', hsel, hkey, hiff.mpr (.inl (beq_iff_eq.mp hfirst))⟩

/-- The first element is pinned and the other is chosen: it stays in bucket 1, and with its new key
it is not found again. -/
theorem chosen_entry_misplaced :
    ∃ s ft ft', (twoEntries.setPin 1 0).Evictable (0xc0108000, 0x8050000) ∧
      (twoEntries.setPin 1 0).select = some (s, ft) ∧
      ft.rekey true s 0xc0108000 0x8050000 = some ft' ∧
      (ft'.entry s.chosen).key = (0xc0108000, 0x8050000) ∧ s.chosen ∈ ft'.ft.buckets 1 ∧
      ft'.find 0xc0108000 0x8050000 = none ∧
      ¬ (twoEntries.setPin 1 0).Rekeyed s.chosen (0xc0108000, 0x8050000) ft' := by
  have hev : (twoEntries.setPin 1 0).Evictable (0xc0108000, 0x8050000) :=
    { sound := (keyed_twoEntries.setPin 0).sound
      binary := by decide +kernel
      apart := by decide +kernel
      fresh := by decide +kernel
      unpinned := by decide +kernel }
  have hrun : (twoEntries.setPin 1 0).select.any (fun c =>
      (c.2.rekey true c.1 0xc0108000 0x8050000).any fun ft' =>
        (ft'.entry c.1.chosen).key == (0xc0108000, 0x8050000) &&
          decide (c.1.chosen ∈ ft'.ft.buckets 1) && (ft'.find 0xc0108000 0x8050000).isNone &&
          decide (findBucket (frameFuncs ft'.entry) ft'.ft (ft'.entry c.1.chosen).key = 2)) =
      true := by decide +kernel
  obtain ⟨⟨s, ft⟩, hsel, hrun⟩ := Option.any_eq_true _ _ |>.mp hrun
  obtain ⟨ft', hkey, hrun⟩ := Option.any_eq_true _ _ |>.mp hrun
  simp only [Bool.and_eq_true, beq_iff_eq, decide_eq_true_eq, Option.isNone_iff_eq_none] at hrun
  obtain ⟨⟨⟨hnew, hbucket⟩, hlost⟩, hbelongs⟩ := hrun
  refine ⟨s, ft, ft', hev, hsel, hkey, hnew, hbucket, hlost, fun hr => ?_⟩
  have hplaced := hr.placed 1 s.chosen hbucket
  rw [hbelongs] at hplaced
  cases hplaced

end Pintos
