import Pintos.Vm.Steps

/-!
# What an exit takes out of the frame table

`pagedir_destroy` calls `free_frame` with the kernel address of each frame it frees, but the frame
table is keyed by the user address. `free_frame` looks into the bucket of the thread and the kernel
address. User addresses lie below that address, so that `frame_less_than` tells an entry there from it
only if the entry's thread is below the exiting one: the first entry of another kind is taken out,
whosever it is.
-/

namespace Pintos

open Function List

theorem eraseP_eq_eraseP {α : Type} {p q : α → Bool} {l : List α} {x : α} (hq : l.find? q = some x)
    (hgone : x ∉ l.eraseP q) (hp : l.find? p = some x) : l.eraseP p = l.eraseP q := by
  induction l with
  | nil => rfl
  | cons y ys ih =>
    by_cases hqy : q y = true
    · rw [find?_cons_of_pos hqy, Option.some.injEq] at hq
      subst hq
      rw [eraseP_cons_of_pos hqy] at hgone ⊢
      by_cases hpy : p y = true
      · exact eraseP_cons_of_pos hpy
      · rw [find?_cons_of_neg hpy] at hp
        exact absurd (mem_of_find?_eq_some hp) hgone
    · rw [find?_cons_of_neg hqy] at hq
      rw [eraseP_cons_of_neg hqy, mem_cons, not_or] at hgone
      have hpy : ¬ p y = true := by
        intro hpy
        rw [find?_cons_of_pos hpy, Option.some.injEq] at hp
        exact hgone.1 hp.symm
      rw [find?_cons_of_neg hpy] at hp
      rw [eraseP_cons_of_neg hpy, eraseP_cons_of_neg hqy, ih hq hgone.2 hp]

theorem take_filter_eraseP {α : Type} {p q : α → Bool} (hqp : ∀ x, q x = true → p x = true)
    {l : List α} {x : α} (hx : l.find? p = some x) (n : Nat) :
    (l.filter p).take (n + 1) = l.filter q ↔
      q x = true ∧ ((l.eraseP p).filter p).take n = (l.eraseP p).filter q := by
  obtain ⟨hpx, l₁, l₂, rfl, hl₁⟩ := find?_eq_some_iff_append.mp hx
  have hp : ∀ y ∈ l₁, ¬ p y = true := fun y hy => by simpa using hl₁ y hy
  have hq : ∀ y ∈ l₁, ¬ q y = true := fun y hy h => hp y hy (hqp y h)
  rw [eraseP_append_right _ (by simpa using hp), eraseP_cons_of_pos hpx]
  simp only [filter_append, filter_eq_nil_iff.mpr hp, filter_eq_nil_iff.mpr hq, nil_append,
    filter_cons_of_pos hpx, take_succ_cons]
  by_cases hqx : q x = true
  · rw [filter_cons_of_pos hqx, cons.injEq, and_iff_right rfl, and_iff_right hqx]
  · rw [filter_cons_of_neg hqx]
    refine iff_of_false (fun heq => hqx ?_) fun h => hqx h.1
    have hmem : x ∈ l₂.filter q := heq ▸ mem_cons_self
    exact (mem_filter.mp hmem).2

namespace FrameTable

/-- Entry `i` is equal to a kernel address of thread `th` for the table. -/
def taken (entry : Nat → FtEntry) (th i : Nat) : Bool := decide (th ≤ (entry i).thread)

/-- The bucket into which `free_frame` looks. -/
def bucketFor (h : Hash Nat) (th page : Nat) : Nat := frameHash (th, page) &&& (h.bucketCnt - 1)

/-- The table without the first entry that is taken for the address. -/
def unlink (entry : Nat → FtEntry) (alloc : Bool) (th page : Nat) (h : Hash Nat) : Hash Nat :=
  if (h.buckets (bucketFor h th page)).any (taken entry th) then
    rehash (frameFuncs entry) alloc
      { h with
        elemCnt := h.elemCnt - 1
        buckets := update h.buckets (bucketFor h th page)
          ((h.buckets (bucketFor h th page)).eraseP (taken entry th)) }
  else h

/-- The first entry that is taken for each address is one of thread `th`, and in the end there is no
entry of `th` left. -/
def Purges (entry : Nat → FtEntry) (alloc : Bool) (th : Nat) : List Nat → Hash Nat → Prop
  | [], h => ∀ i ∈ hashElems h, (entry i).thread ≠ th
  | page :: pages, h =>
    (∀ i, (h.buckets (bucketFor h th page)).find? (taken entry th) = some i →
      (entry i).thread = th) ∧ Purges entry alloc th pages (unlink entry alloc th page h)

/-- The number of the addresses that lead into a bucket. -/
def hits (h : Hash Nat) (th : Nat) (pages : List Nat) (b : Nat) : Nat :=
  pages.countP fun page => bucketFor h th page == b

/-- In each bucket, as many of the entries that are taken as there are addresses that lead there, from
the front on, are exactly the entries of thread `th`. -/
def OwnFirst (t : FrameTable) (th : Nat) (pages : List Nat) : Prop :=
  ∀ b < t.ft.bucketCnt,
    ((t.ft.buckets b).filter (taken t.entry th)).take (hits t.ft th pages b) =
      (t.ft.buckets b).filter fun i => (t.entry i).thread = th

section

variable {a : Bool} {t t' : FrameTable} {th page : Nat}

theorem same_eq_taken {entry : Nat → FtEntry} {i : Nat} (h : (entry i).vaddr < page) :
    (frameFuncs entry).same (th, page) i = taken entry th i := by
  simp only [HashFuncs.same, frameFuncs, frameLessThan, FtEntry.key, taken, decide_eq_true h,
    decide_eq_false (Nat.not_lt.mpr h.le), Bool.true_and, Bool.false_and, Bool.not_false,
    Bool.and_true, ← decide_not, Nat.not_lt]

theorem find_eq (hva : ∀ i ∈ hashElems t.ft, (t.entry i).vaddr < page) :
    t.find th page = (t.ft.buckets (bucketFor t.ft th page)).find? (taken t.entry th) := by
  show (t.ft.buckets (bucketFor t.ft th page)).find? _ = _
  rw [← head?_filter, ← head?_filter]
  refine congrArg _ (filter_congr fun i hi => same_eq_taken (hva i ?_))
  exact mem_hashElems.mpr ⟨_, and_pred_lt t.ft.bucketCnt_pos, hi⟩

/-- **One call**: the first entry that is taken for the address is gone, and no other. -/
theorem free_eq (hva : ∀ i ∈ hashElems t.ft, (t.entry i).vaddr < page)
    (h : t.free a th page = some t') :
    t'.entry = t.entry ∧ t'.ft = unlink t.entry a th page t.ft ∧
      ∀ i, (t.ft.buckets (bucketFor t.ft th page)).find? (taken t.entry th) = some i →
        i ∉ hashElems t'.ft := by
  unfold free at h
  split at h
  · next hfind =>
    cases h
    rw [find_eq hva] at hfind
    refine ⟨rfl, ?_, fun i hi => by rw [hfind] at hi; cases hi⟩
    rw [unlink, if_neg]
    simpa using hfind
  · next i hfind =>
    have hmem := findElem_mem hfind
    rw [find_eq hva] at hfind
    simp only at h
    split at h
    · cases h
    · next hgone =>
      cases h
      refine ⟨rfl, ?_, fun j hj => by rw [hfind] at hj; cases hj; exact hgone⟩
      -- had `hash_delete` found nothing, or another entry, `i` would still be there
      cases hdel : findElem (frameFuncs t.entry) t.ft
          (findBucket (frameFuncs t.entry) t.ft (t.entry i).key) (t.entry i).key with
      | none => exact absurd (mem_hashDelete_of_ne hmem (by rw [hdel]; nofun)) hgone
      | some j =>
        have hj : j = i := by
          by_contra hne
          refine hgone (mem_hashDelete_of_ne hmem ?_)
          rw [hdel]
          exact fun heq => hne (Option.some.inj heq)
        subst hj
        simp only [hashDelete, hdel, mem_rehash] at hgone ⊢
        have hlt : bucketFor t.ft th page < t.ft.bucketCnt := and_pred_lt t.ft.bucketCnt_pos
        have hgone' : ∀ b < t.ft.bucketCnt, j ∉ (removeElem (frameFuncs t.entry) t.ft
            (findBucket (frameFuncs t.entry) t.ft (t.entry j).key) (t.entry j).key).buckets b :=
          fun b hb hin => hgone (mem_hashElems.mpr ⟨b, hb, hin⟩)
        -- nor would it be gone from the bucket where `hash_find` found it
        have hbucket : findBucket (frameFuncs t.entry) t.ft (t.entry j).key =
            bucketFor t.ft th page := by
          by_contra hne
          refine hgone' _ hlt ?_
          simp only [removeElem, update_of_ne (Ne.symm hne)]
          exact mem_of_find?_eq_some hfind
        have hself := hgone' _ hlt
        simp only [removeElem, hbucket, update_self] at hself
        rw [findElem, hbucket] at hdel
        have hany : (t.ft.buckets (bucketFor t.ft th page)).any (taken t.entry th) = true :=
          any_eq_true.mpr ⟨j, mem_of_find?_eq_some hfind, find?_some hfind⟩
        rw [unlink, if_pos hany, eraseP_eq_eraseP hdel hself hfind, removeElem, hbucket]

theorem mem_unlink_of_ne {entry : Nat → FtEntry} {h : Hash Nat} {i : Nat} (hi : i ∈ hashElems h)
    (hne : (h.buckets (bucketFor h th page)).find? (taken entry th) ≠ some i) :
    i ∈ hashElems (unlink entry a th page h) := by
  unfold unlink
  split
  · rw [mem_rehash]
    obtain ⟨b, hb, hi⟩ := mem_hashElems.mp hi
    refine mem_hashElems.mpr ⟨b, hb, ?_⟩
    by_cases hpage : b = bucketFor h th page
    · subst hpage
      simp only [update_self]
      exact mem_eraseP_of_find?_ne hi hne
    · simpa only [update_of_ne hpage] using hi
  · exact hi

end

/-! ## All the calls of an exit -/

section

variable {a : Alloc} {t t' : FrameTable} {th : Nat} {pages : List Nat}

/-- The table has no entry of `th` any more, and all entries of the others. -/
def Purged (t t' : FrameTable) (th : Nat) : Prop :=
  (∀ e ∈ t'.elems, e.thread ≠ th) ∧
    ∀ i ∈ hashElems t.ft, (t.entry i).thread ≠ th → i ∈ hashElems t'.ft ∧ t'.entry i = t.entry i

theorem freeFrames_entry (h : Vm.freeFrames a th pages t = some t') :
    t'.entry = t.entry ∧ ∀ i ∈ hashElems t'.ft, i ∈ hashElems t.ft := by
  induction pages generalizing t with
  | nil =>
    cases h
    exact ⟨rfl, fun _ => id⟩
  | cons page pages ih =>
    unfold Vm.freeFrames at h
    split at h
    · next t₁ hfree =>
      obtain ⟨hentry, -, hsub⟩ := free_some hfree
      obtain ⟨hentry', hsub'⟩ := ih h
      exact ⟨hentry'.trans hentry, fun i hi => hsub i (hsub' i hi)⟩
    · cases h

theorem purged_iff (hva : ∀ i ∈ hashElems t.ft, ∀ page ∈ pages, (t.entry i).vaddr < page)
    (h : Vm.freeFrames a th pages t = some t') :
    Purged t t' th ↔ Purges t.entry a.rehash th pages t.ft := by
  induction pages generalizing t with
  | nil =>
    cases h
    simp only [Purged, Purges, elems, mem_map, forall_exists_index, and_imp,
      forall_apply_eq_imp_iff₂, and_true, and_iff_left_iff_imp]
    exact fun _ _ hi _ => hi
  | cons page pages ih =>
    unfold Vm.freeFrames at h
    split at h
    · next t₁ hfree =>
      obtain ⟨hentry, hft, hgone⟩ := free_eq (fun i hi => hva i hi page mem_cons_self) hfree
      have hsub := (free_some hfree).2.2
      have hrest := ih (fun i hi p hp => hentry ▸ hva i (hsub i hi) p (mem_cons_of_mem _ hp)) h
      obtain ⟨hentry', hsub'⟩ := freeFrames_entry h
      rw [hentry, hft] at hrest
      rw [Purges, ← hrest]
      simp only [Purged, elems, mem_map, forall_exists_index, and_imp, forall_apply_eq_imp_iff₂,
        hentry', hentry, and_true]
      constructor
      · rintro ⟨hleft, hkept⟩
        refine ⟨fun i hi => ?_, hleft, fun i hi => hkept i (hsub i hi)⟩
        by_contra hne
        have hin : i ∈ hashElems t.ft := mem_hashElems.mpr
          ⟨_, and_pred_lt t.ft.bucketCnt_pos, mem_of_find?_eq_some hi⟩
        exact hgone i hi (hsub' i (hkept i hin hne))
      · rintro ⟨hown, hleft, hkept⟩
        refine ⟨hleft, fun i hi hne => hkept i ?_ hne⟩
        rw [hft]
        exact mem_unlink_of_ne hi fun hfound => hne (hown i hfound)
    · cases h

theorem purges_rehash {entry : Nat → FtEntry} {alloc : Bool} {h : Hash Nat}
    (hcnt : alloc = true → pages ≠ [] → newBucketCnt h.elemCnt = h.bucketCnt) :
    Purges entry alloc th pages (rehash (frameFuncs entry) alloc h) ↔ Purges entry alloc th pages h := by
  cases pages with
  | nil => simp only [Purges, mem_rehash]
  | cons page pages =>
    have hsame : rehash (frameFuncs entry) alloc h = h := by
      unfold rehash
      split
      · rfl
      · next hne =>
        refine if_neg fun ha => hne (hcnt ha (List.cons_ne_nil _ _))
    rw [hsame]

/-- While the number of buckets stays, the calls take from each bucket as many entries as there are
addresses that lead there. -/
theorem purges_iff {entry : Nat → FtEntry} {alloc : Bool} {h : Hash Nat}
    (hcnt : alloc = true → ∀ k < pages.length, 0 < k →
      newBucketCnt (h.elemCnt - k) = h.bucketCnt) :
    Purges entry alloc th pages h ↔ ∀ b < h.bucketCnt,
      ((h.buckets b).filter (taken entry th)).take (hits h th pages b) =
        (h.buckets b).filter fun i => (entry i).thread = th := by
  have hown : ∀ i, decide ((entry i).thread = th) = true → taken entry th i = true := by
    intro i hi
    have hi := of_decide_eq_true hi
    exact decide_eq_true hi.ge
  induction pages generalizing h with
  | nil =>
    simp only [Purges, hits, countP_nil, take_zero, mem_hashElems]
    constructor
    · intro hnone b hb
      refine (filter_eq_nil_iff.mpr fun i hi => ?_).symm
      simpa using hnone i ⟨b, hb, hi⟩
    · rintro hnone i ⟨b, hb, hi⟩
      simpa using filter_eq_nil_iff.mp (hnone b hb).symm i hi
  | cons page pages ih =>
    have hlt : bucketFor h th page < h.bucketCnt := and_pred_lt h.bucketCnt_pos
    have hhits : ∀ b, hits h th (page :: pages) b =
        hits h th pages b + if bucketFor h th page = b then 1 else 0 := by
      intro b
      simp only [hits, countP_cons, beq_iff_eq]
    have hsplit : ∀ P : Nat → Prop, (∀ b < h.bucketCnt, P b) ↔
        P (bucketFor h th page) ∧ ∀ b < h.bucketCnt, b ≠ bucketFor h th page → P b := by
      intro P
      refine ⟨fun hall => ⟨hall _ hlt, fun b hb _ => hall b hb⟩, fun hall b hb => ?_⟩
      by_cases hbb : b = bucketFor h th page
      · exact hbb ▸ hall.1
      · exact hall.2 b hb hbb
    rw [Purges, unlink, hsplit]
    cases hfind : (h.buckets (bucketFor h th page)).find? (taken entry th) with
    | none =>
      have hnone := find?_eq_none.mp hfind
      have hany : ¬ (h.buckets (bucketFor h th page)).any (taken entry th) = true := by
        simpa using hnone
      have hno := filter_eq_nil_iff.mpr hnone
      have hrest := ih fun ha k hkl => hcnt ha k (Nat.lt_succ_of_lt hkl)
      rw [if_neg hany, propext hrest, hsplit, hno, take_nil, take_nil, and_iff_right nofun]
      refine and_congr_right fun _ => forall₃_congr fun b _ hne => ?_
      rw [hhits, if_neg (Ne.symm hne), Nat.add_zero]
    | some x =>
      have hany : (h.buckets (bucketFor h th page)).any (taken entry th) = true :=
        any_eq_true.mpr ⟨x, mem_of_find?_eq_some hfind, find?_some hfind⟩
      have hrest := @ih
        { h with
          elemCnt := h.elemCnt - 1
          buckets := update h.buckets (bucketFor h th page)
            ((h.buckets (bucketFor h th page)).eraseP (taken entry th)) } fun ha k hkl _ => by
        have := hcnt ha (k + 1) (by simpa using hkl) (by omega)
        simpa only [Nat.sub_sub, Nat.add_comm 1 k] using this
      rw [if_pos hany, purges_rehash, propext hrest, hsplit, hhits, if_pos rfl,
        take_filter_eraseP hown hfind]
      · simp only [Option.some.injEq, forall_eq', update_self, decide_eq_true_eq, and_assoc]
        refine and_congr_right fun _ => and_congr_right fun _ => forall₃_congr fun b _ hne => ?_
        rw [hhits, if_neg (Ne.symm hne), Nat.add_zero, update_of_ne hne]
        rfl
      · intro ha hne
        exact hcnt ha 1 (by simpa [length_pos_iff] using hne) Nat.one_pos

end

end FrameTable

namespace Vm

theorem exitProc_of_step {a : Alloc} {t : Nat} {vm vm' : Vm FrameTable}
    (h : Step vm (.exit a t) vm') : exitProc a t vm = .ok vm' := h.2

/-- A process that has loaded its page of text, on a machine whose user pool starts at `base`. -/
def loadedAt (base : Nat) (hal : base % 4096 = 0) (hk : physBase ≤ base) : Vm FrameTable :=
  { bootWith 2 16 textDisk with userPool := ⟨base, bitmapCreate 2, hal, hk⟩ }.next
    (loadText 0xc0100000)

/-- The process exits. -/
def textExit : Event := .exit ⟨true, true⟩ 0xc0100000

theorem loadedAt_isSome :
    ((loadedAt 0xc0420000 (by decide) (by decide)).procs 0xc0100000).isSome = true := by
  decide +kernel

end Vm

end Pintos
