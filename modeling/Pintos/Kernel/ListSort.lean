import Pintos.Kernel.List
import Pintos.Lib.NaturalMerge

/-!
# Sorting lists (`lib/kernel/list.c`)

`list_sort` is a natural merge sort in place: a pass finds runs in pairs and merges the two by moving
elements of the second one, one at a time, into the first one with `list_splice`.
-/

namespace Pintos

open Lib List

variable {α : Type}

/-! ## The functions -/

section Functions

variable [DecidableEq α]

/-- The loop of `is_sorted`. -/
def isSortedLoop (less : α → α → Bool) (l : Links α) (b : α) : Nat → α → Option Bool
  | 0, _ => none
  | fuel + 1, a => do
      let a ← listNext l a
      if a = b then return true
      else
        let p ← listPrev l a
        if less a p then return false else isSortedLoop less l b fuel a

/-- `is_sorted`. -/
def isSorted (less : α → α → Bool) (fuel : Nat) (l : Links α) (a b : α) : Option Bool :=
  if a = b then some true else isSortedLoop less l b fuel a

/-- The loop of `find_end_of_run`. -/
def endOfRunLoop (less : α → α → Bool) (l : Links α) (b : α) : Nat → α → Option α
  | 0, _ => none
  | fuel + 1, a => do
      let a ← listNext l a
      if a = b then return a
      else
        let p ← listPrev l a
        if less a p then return a else endOfRunLoop less l b fuel a

/-- `find_end_of_run`. -/
def findEndOfRun (less : α → α → Bool) (fuel : Nat) (l : Links α) (a b : α) : Option α :=
  if a = b then none else endOfRunLoop less l b fuel a

/-- The loop of `inplace_merge`. -/
def mergeLoop (less : α → α → Bool) (b1 : α) : Nat → Links α → α → α → Option (Links α)
  | 0, _, _, _ => none
  | fuel + 1, l, a0, a1b0 =>
    if a0 ≠ a1b0 ∧ a1b0 ≠ b1 then
      if less a1b0 a0 then do
        let a1b0 ← listNext l a1b0
        let p ← listPrev l a1b0
        let l ← listSplice l a0 p a1b0
        mergeLoop less b1 fuel l a0 a1b0
      else do
        let a0 ← listNext l a0
        mergeLoop less b1 fuel l a0 a1b0
    else some l

/-- `inplace_merge`. -/
def inplaceMerge (less : α → α → Bool) (fuel : Nat) (l : Links α) (a0 a1b0 b1 : α) :
    Option (Links α) := do
  let first ← isSorted less fuel l a0 a1b0
  let second ← isSorted less fuel l a1b0 b1
  if first && second then mergeLoop less b1 fuel l a0 a1b0 else none

/-- The `for` loop of `list_sort`, from `a0` on: the links and `output_run_cnt`, which is at most the
number of elements and does not overflow. -/
def sortPass (less : α → α → Bool) (rounds : Nat) (list : KernelList α) :
    Nat → Links α → α → Nat → Option (Links α × Nat)
  | 0, _, _, _ => none
  | fuel + 1, l, a0, outputRunCnt =>
    if a0 = list.tail then some (l, outputRunCnt)
    else do
      let a1b0 ← findEndOfRun less rounds l a0 list.tail
      if a1b0 = list.tail then return (l, outputRunCnt + 1)
      else
        let b1 ← findEndOfRun less rounds l a1b0 list.tail
        let l ← inplaceMerge less rounds l a0 a1b0 b1
        sortPass less rounds list fuel l b1 (outputRunCnt + 1)

/-- The `do` loop of `list_sort`. -/
def sortLoop (less : α → α → Bool) (rounds : Nat) (list : KernelList α) :
    Nat → Links α → Option (Links α)
  | 0, _ => none
  | fuel + 1, l => do
      let a0 ← listBegin l list
      let (l, outputRunCnt) ← sortPass less rounds list rounds l a0 0
      if 1 < outputRunCnt then sortLoop less rounds list fuel l else return l

/-- `list_sort`; no loop makes more than `fuel` rounds. -/
def listSort (less : α → α → Bool) (fuel : Nat) (l : Links α) (list : KernelList α) :
    Option (Links α) := do
  let l ← sortLoop less fuel list fuel l
  let first ← listBegin l list
  if ← isSorted less fuel l first list.tail then return l else none

end Functions

/-! ## The parts of the sort -/

section Parts

variable {l l' : Links α} {list : KernelList α} {xs ys A B C D R P S : List α} {x : α}

/-- The list has the elements `ys` now, which are those of `xs`, and no other link has changed. -/
structure Rearranged (l l' : Links α) (list : KernelList α) (xs ys : List α) : Prop where
  isList : IsList l' list ys
  perm : ys.Perm xs
  same : l.SameOff l' (· ∈ list.nodes xs)

theorem Rearranged.refl (h : IsList l list xs) : Rearranged l l list xs xs := ⟨h, .refl xs, .refl l _⟩

theorem Rearranged.trans {l'' : Links α} {zs : List α} (h : Rearranged l l' list xs ys)
    (h' : Rearranged l' l'' list ys zs) : Rearranged l l'' list xs zs where
  isList := h'.isList
  perm := h'.perm.trans h.perm
  same := h.same.trans (h'.same.mono fun x hx => by
    simp only [KernelList.nodes, mem_cons, mem_append] at hx ⊢
    rw [h.perm.mem_iff] at hx
    exact hx)

variable [DecidableEq α] {less : α → α → Bool} {fuel : Nat}

theorem IsList.move (h : IsList l list (C ++ (D ++ (R ++ B)))) :
    ∃ l', listSplice l (list.place (D ++ B)) (list.place (R ++ B)) (list.place B) = some l' ∧
      IsList l' list (C ++ (R ++ (D ++ B))) ∧
      l.SameOff l' (· ∈ list.nodes (C ++ (D ++ (R ++ B)))) := by
  have hholds : Holds l (fun _ : Unit => list) fun _ => C ++ (D ++ (R ++ B)) :=
    ⟨fun _ => h, fun _ _ => rfl⟩
  obtain ⟨l', hl', hholds', hsame⟩ := hholds.splice (i := ()) (j := ()) (A := C ++ D) (R := R) (B := B)
    (C := C) (D := D ++ B) (by simp) (by rw [← append_assoc]; exact place_eq list (R ++ B))
    (place_eq list B) (by simp) (place_eq list (D ++ B))
  refine ⟨l', hl', ?_, hsame.mono fun x hx => hx.elim id id⟩
  have hlist := hholds'.isList ()
  rw [Function.update_self, append_assoc] at hlist
  exact hlist

theorem isSortedLoop_eq (h : IsList l list (P ++ (x :: A ++ S))) (hA : InOrder less (x :: A))
    (hfuel : (x :: A).length < fuel) :
    isSortedLoop less l (list.place S) fuel x = some true := by
  induction A generalizing P x fuel with
  | nil =>
    cases fuel with
    | zero => cases hfuel
    | succ fuel => simp [isSortedLoop, h.listNext]
  | cons y A ih =>
    cases fuel with
    | zero => cases hfuel
    | succ fuel =>
      have h' : IsList l list ((P ++ [x]) ++ (y :: A ++ S)) := by
        simpa using h
      have hyx : less y x = false := by
        have hle := (pairwise_cons.mp hA).1 y mem_cons_self
        simpa [notAfter] using hle
      have hnext : listNext l x = some y := h.listNext
      have hprev : listPrev l y = some x := h.listPrev
      have hne : y ≠ list.place S := h'.place_ne
      have hrest := ih h' hA.tail (Nat.lt_of_succ_lt_succ hfuel)
      simp [isSortedLoop, hnext, hprev, hne, hyx, hrest]

theorem isSorted_eq (h : IsList l list (P ++ (A ++ S))) (hA : InOrder less A)
    (hfuel : A.length < fuel) :
    isSorted less fuel l (list.place (A ++ S)) (list.place S) = some true := by
  cases A with
  | nil => simp [isSorted]
  | cons x A =>
    have hne : x ≠ list.place S := h.place_ne
    have hloop : isSortedLoop less l (list.place S) fuel x = some true :=
      isSortedLoop_eq h hA hfuel
    simp [isSorted, hne, hloop]

theorem findEndOfRun_eq (h : IsList l list (P ++ x :: xs)) (hfuel : xs.length < fuel) :
    findEndOfRun less fuel l x list.tail = some (list.place (splitRun less x xs).2) := by
  have hne : x ≠ list.tail := by
    have h' : IsList l list (P ++ x :: (xs ++ [])) := by
      rw [append_nil]
      exact h
    exact h'.place_ne
  suffices hloop : endOfRunLoop less l list.tail fuel x =
      some (list.place (splitRun less x xs).2) by
    simp [findEndOfRun, hne, hloop]
  clear hne
  induction xs generalizing P x fuel with
  | nil =>
    cases fuel with
    | zero => cases hfuel
    | succ fuel => simp [endOfRunLoop, h.listNext, splitRun]
  | cons y xs ih =>
    cases fuel with
    | zero => cases hfuel
    | succ fuel =>
      have h' : IsList l list ((P ++ [x]) ++ y :: xs) := by
        simpa using h
      have hnext : listNext l x = some y := h.listNext
      have hprev : listPrev l y = some x := h.listPrev
      have hne : y ≠ list.tail := by
        have h'' : IsList l list ((P ++ [x]) ++ y :: (xs ++ [])) := by
          rw [append_nil]
          exact h'
        exact h''.place_ne
      cases hyx : less y x with
      | true => simp [endOfRunLoop, hnext, hprev, hne, hyx, splitRun]
      | false =>
        have hrest := ih h' (Nat.lt_of_succ_lt_succ hfuel)
        simp [endOfRunLoop, hnext, hprev, hne, hyx, hrest, splitRun]

theorem mergeLoop_ok (h : IsList l list (P ++ (A ++ (B ++ S)))) (hfuel : A.length + B.length < fuel) :
    ∃ l', mergeLoop less (list.place S) fuel l (list.place (A ++ (B ++ S))) (list.place (B ++ S)) =
        some l' ∧
      Rearranged l l' list (P ++ (A ++ (B ++ S))) (P ++ (A.merge B (notAfter less) ++ S)) := by
  induction fuel generalizing l P A B with
  | zero => cases hfuel
  | succ fuel ih =>
    cases A with
    | nil =>
      refine ⟨l, by simp [mergeLoop], ?_⟩
      simpa using Rearranged.refl h
    | cons a A =>
      cases B with
      | nil =>
        refine ⟨l, by simp [mergeLoop], ?_⟩
        simpa using Rearranged.refl h
      | cons b B =>
        have hb : IsList l list ((P ++ a :: A) ++ b :: (B ++ S)) := by
          simpa using h
        have hab : a ≠ b := h.place_ne (D := b :: (B ++ S))
        have hbs : b ≠ list.place S := hb.place_ne
        cases hba : less b a with
        | false =>
          -- the first run goes on
          have h' : IsList l list ((P ++ [a]) ++ (A ++ (b :: B ++ S))) := by
            simpa using h
          obtain ⟨l', hl', hres⟩ := ih h' (by simp only [length_cons] at hfuel ⊢; omega)
          have hnext : listNext l a = some (list.place (A ++ (b :: B ++ S))) := h.listNext
          refine ⟨l', ?_, ?_⟩
          · simpa [mergeLoop, hab, hbs, hba, hnext] using hl'
          · rw [cons_merge_cons, if_pos (by simp [notAfter, hba])]
            simpa using hres
        | true =>
          -- `b` goes in front of the first run
          have hmove : IsList l list (P ++ (a :: A ++ ([b] ++ (B ++ S)))) := by
            simpa using h
          obtain ⟨l₁, hl₁, hlist, hsame⟩ := hmove.move
          have hnext : listNext l b = some (list.place (B ++ S)) := hb.listNext
          have hprev : listPrev l (list.place (B ++ S)) = some b := hb.listPrev
          have h₁ : IsList l₁ list ((P ++ [b]) ++ (a :: A ++ (B ++ S))) := by
            simpa using hlist
          obtain ⟨l', hl', hres⟩ := ih h₁ (by simp only [length_cons] at hfuel ⊢; omega)
          have hstep : Rearranged l l₁ list (P ++ (a :: A ++ (b :: B ++ S)))
              ((P ++ [b]) ++ (a :: A ++ (B ++ S))) := by
            refine ⟨h₁, ?_, by simpa using hsame⟩
            rw [append_assoc]
            refine List.Perm.append_left P ?_
            show (b :: ((a :: A) ++ (B ++ S))).Perm ((a :: A) ++ b :: (B ++ S))
            exact perm_middle.symm
          refine ⟨l', ?_, hstep.trans ?_⟩
          · have hl₁ : listSplice l a b (list.place (B ++ S)) = some l₁ := hl₁
            simpa [mergeLoop, hab, hbs, hba, hnext, hprev, hl₁] using hl'
          · rw [cons_merge_cons, if_neg (by simp [notAfter, hba])]
            simpa using hres

theorem inplaceMerge_ok (h : IsList l list (P ++ (A ++ (B ++ S)))) (hA : InOrder less A)
    (hB : InOrder less B) (hfuel : A.length + B.length < fuel) :
    ∃ l', inplaceMerge less fuel l (list.place (A ++ (B ++ S))) (list.place (B ++ S)) (list.place S) =
        some l' ∧
      Rearranged l l' list (P ++ (A ++ (B ++ S))) (P ++ (A.merge B (notAfter less) ++ S)) := by
  obtain ⟨l', hl', hres⟩ := mergeLoop_ok h hfuel
  have h' : IsList l list ((P ++ A) ++ (B ++ S)) := by
    rw [append_assoc]
    exact h
  have hfirst : isSorted less fuel l (list.place (A ++ (B ++ S))) (list.place (B ++ S)) = some true :=
    isSorted_eq h hA (by omega)
  have hsecond : isSorted less fuel l (list.place (B ++ S)) (list.place S) = some true :=
    isSorted_eq h' hB (by omega)
  exact ⟨l', by simp [inplaceMerge, hfirst, hsecond, hl'], hres⟩

variable [IsStrictWeakOrder α fun a b => less a b = true]

theorem sortPass_ok {rounds cnt : Nat} (h : IsList l list (P ++ xs)) (hfuel : xs.length < fuel)
    (hrounds : xs.length < rounds) :
    ∃ l' ys n, sortPass less rounds list fuel l (list.place xs) cnt = some (l', cnt + n) ∧
      Pass less xs ys n ∧ Rearranged l l' list (P ++ xs) (P ++ ys) := by
  induction fuel generalizing l P xs cnt with
  | zero => cases hfuel
  | succ fuel ih =>
    cases xs with
    | nil => exact ⟨l, [], 0, by simp [sortPass], .nil, .refl h⟩
    | cons x xs =>
      have hx : x ≠ list.tail := h.place_eq_tail.not.mpr nofun
      have hrun : findEndOfRun less rounds l x list.tail =
          some (list.place (splitRun less x xs).2) :=
        findEndOfRun_eq h (by simp only [length_cons] at hrounds; omega)
      cases hsplit : (splitRun less x xs).2 with
      | nil =>
        rw [hsplit] at hrun
        exact ⟨l, x :: xs, 1, by simp [sortPass, hx, hrun], .odd hsplit, .refl h⟩
      | cons y s =>
        rw [hsplit] at hrun
        have hlen₁ := splitRun_length less x xs
        have hlen₂ := splitRun_length less y s
        rw [hsplit] at hlen₁
        simp only [length_cons] at hlen₁ hfuel hrounds
        -- the two runs and what is behind them
        have hparts : x :: xs = (x :: (splitRun less x xs).1) ++
            ((y :: (splitRun less y s).1) ++ (splitRun less y s).2) := by
          rw [splitRun_twice hsplit, append_assoc]
        have hy : IsList l list ((P ++ x :: (splitRun less x xs).1) ++ y :: s) := by
          have hs : y :: s = (y :: (splitRun less y s).1) ++ (splitRun less y s).2 := by
            rw [cons_append, splitRun_append]
          rw [hs, append_assoc, ← hparts]
          exact h
        have hyt : y ≠ list.tail := hy.place_eq_tail.not.mpr nofun
        have hrun₂ : findEndOfRun less rounds l y list.tail =
            some (list.place (splitRun less y s).2) := findEndOfRun_eq hy (by omega)
        have hboth : (x :: (splitRun less x xs).1).length +
            (y :: (splitRun less y s).1).length < rounds := by
          have hall := congrArg List.length hparts
          simp only [length_cons, length_append] at hall ⊢
          omega
        obtain ⟨l₁, hl₁, hres₁⟩ := inplaceMerge_ok (P := P) (by rw [← hparts]; exact h)
          (splitRun_inOrder x xs) (splitRun_inOrder y s) hboth
        have hl₁ : inplaceMerge less rounds l x y (list.place (splitRun less y s).2) = some l₁ :=
          hl₁
        have h₁ := hres₁.isList
        rw [← append_assoc] at h₁
        obtain ⟨l', out, n, hl', hpass, hres⟩ := @ih _ _ _ (cnt + 1) h₁ (by omega) (by omega)
        refine ⟨l', _, n + 1, ?_, .merge hsplit hpass, ?_⟩
        · have hcnt : cnt + 1 + n = cnt + (n + 1) := by omega
          simp [sortPass, hx, hrun, hyt, hrun₂, hl₁, hl', hcnt]
        · rw [← hparts] at hres₁
          rw [append_assoc, append_assoc] at hres
          exact hres₁.trans hres

/-- The `do` loop, whose next pass has to do with at most `n` runs. -/
theorem sortLoop_ok {rounds n : Nat} (h : IsList l list xs) (hruns : RunsOf less n xs)
    (hfuel : n < fuel)
    (hrounds : xs.length < rounds) :
    ∃ l' ys, sortLoop less rounds list fuel l = some l' ∧ Rearranged l l' list xs ys ∧
      InOrder less ys ∧
      ∀ z, ys.filter (equivalent less z) = xs.filter (equivalent less z) := by
  induction fuel generalizing l xs n with
  | zero => cases hfuel
  | succ fuel ih =>
    obtain ⟨l₁, ys, k, hl₁, hpass, hres⟩ : ∃ l' ys k,
        sortPass less rounds list rounds l (list.place xs) 0 = some (l', 0 + k) ∧
        Pass less xs ys k ∧ Rearranged l l' list xs ys := sortPass_ok (P := []) h hrounds hrounds
    rw [Nat.zero_add] at hl₁
    have hbegin := h.begin_place
    have hstable := hpass.stable
    by_cases hk : 1 < k
    · -- the number of runs falls
      have hhalf := hpass.halves hruns
      have hlen : ys.length < rounds := by
        rw [hpass.perm.length_eq]
        exact hrounds
      obtain ⟨l', zs, hl', hres', horder, hstable'⟩ :=
        ih hres.isList hpass.runs (by omega) hlen
      refine ⟨l', zs, by simp [sortLoop, hbegin, hl₁, hk, hl'], hres.trans hres', horder, fun z => ?_⟩
      rw [hstable' z, hstable z]
    · exact ⟨l₁, ys, by simp [sortLoop, hbegin, hl₁, hk], hres,
        hpass.runs.inOrder (Nat.le_of_not_lt hk), hstable⟩

end Parts

/-- The links of a list of 13, 12 and 2 between the headers 0 and 1. -/
def digitLinks : Links Nat where
  prev
    | 13 => some 0
    | 12 => some 13
    | 2 => some 12
    | 1 => some 2
    | _ => none
  next
    | 0 => some 13
    | 13 => some 12
    | 12 => some 2
    | 2 => some 1
    | _ => none

theorem digitLinks_isList : IsList digitLinks ⟨0, 1⟩ [13, 12, 2] :=
  ⟨by simp [Links.Path, Links.Joined, KernelList.nodes, digitLinks], rfl, rfl⟩

/-- **`list_sort` is a stable sort.** For a strict weak order it returns, however the elements are
ordered before. It leaves the same elements in order, with equivalent elements in the order they had. -/
theorem listSort_stable [DecidableEq α] {less : α → α → Bool}
    [IsStrictWeakOrder α fun a b => less a b = true]
    {l : Links α} {list : KernelList α} {xs : List α} (h : IsList l list xs) {fuel : Nat}
    (hfuel : xs.length < fuel) :
    ∃ l' ys, listSort less fuel l list = some l' ∧ IsList l' list ys ∧ ys.Perm xs ∧
      ys.Pairwise (fun a b => less b a = false) ∧
      (∀ z, (ys.filter fun x => !less z x && !less x z) = xs.filter fun x => !less z x && !less x z) ∧
      l.SameOff l' (· ∈ list.nodes xs) := by
  obtain ⟨l', ys, hl', hres, horder, hstable⟩ :=
    sortLoop_ok h (RunsOf.length less xs) hfuel hfuel
  have hfirst := hres.isList.begin_place
  have hlen : ys.length < fuel := by
    rw [hres.perm.length_eq]
    exact hfuel
  have hlist : IsList l' list ([] ++ (ys ++ [])) := by
    rw [append_nil]
    exact hres.isList
  have hsorted := isSorted_eq hlist horder hlen
  rw [append_nil, place_nil] at hsorted
  refine ⟨l', ys, by simp [listSort, hl', hfirst, hsorted], hres.isList, hres.perm, ?_, hstable,
    hres.same⟩
  exact horder.imp fun hle => by simpa [notAfter] using hle

/-- Sorting by the last decimal digit keeps 12 before 2. -/
theorem listSort_stable_digits :
    ∃ l' ys, listSort (fun a b => decide (a % 10 < b % 10)) 4 digitLinks ⟨0, 1⟩ = some l' ∧
      IsList l' ⟨0, 1⟩ ys ∧ ys.Perm [13, 12, 2] ∧
      ys.Pairwise (fun a b => decide (b % 10 < a % 10) = false) ∧
      (∀ z, (ys.filter fun x => !decide (z % 10 < x % 10) && !decide (x % 10 < z % 10)) =
        [13, 12, 2].filter fun x => !decide (z % 10 < x % 10) && !decide (x % 10 < z % 10)) ∧
      digitLinks.SameOff l' (· ∈ KernelList.nodes ⟨0, 1⟩ [13, 12, 2]) := by
  have : IsStrictWeakOrder Nat fun a b => decide (a % 10 < b % 10) = true :=
    { irrefl := by simp
      trans := by
        intro a b c hab hbc
        simp only [decide_eq_true_eq] at hab hbc ⊢
        omega
      incomp_trans := by
        intro a b c hab hbc
        simp only [decide_eq_true_eq] at hab hbc ⊢
        omega }
  exact listSort_stable digitLinks_isList (by decide)

end Pintos
